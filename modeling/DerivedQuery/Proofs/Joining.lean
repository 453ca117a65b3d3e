import DerivedQuery.Proofs.Ending

/-!
# Names that are joined

Conditions and an order are read in the same way behind every name that may take them.

* `Draft.Projects`: a projection that has been begun is there in the end;
* `Continues`, `continues_of_parse`: texts that can be read on as conditions or as an order;
* `Ends.reads_keyword`, `Continues.behind`: a name and a keyword, and such a text behind them;
* **`parse_append_connective`**: more conditions;
* **`parse_append_ordering`**: an order, which actions on many records refuse.
-/

namespace DerivedQuery

/-! ## Projections -/

/-- A projection has been read, or its path is being read. -/
def Draft.Projects (d : Draft) : Prop :=
  d.projection ≠ none ∨ d.clause = .projection ∧ d.segments ≠ []

/-- A projection has been begun. -/
structure Projecting (c : Cursor) (d : Draft) : Prop where
  fits : d.Fits c.mode
  projects : d.Projects

section Projection

variable {settings : Settings} {c c' : Cursor} {d d' : Draft} {p : Piece}

theorem Draft.Closes.projection_ne_none (h : d.Closes d') (hs : ∀ s ∈ d.segments, s ≠ [])
    (hp : d.Projects) : d'.projection ≠ none := by
  cases h with
  | projection =>
    rcases hp with hp | ⟨-, hne⟩
    · unfold closeProjection
      split
      · exact hp
      · exact Option.some_ne_none _
    · rw [d.closeProjection_projection (q := ⟨d.segments, hne, hs⟩) rfl]
      exact Option.some_ne_none _
  | condition hc | orderItem hc | nothing hc =>
    exact hp.resolve_right fun h => by cases hc.symm.trans h.1

/-- **Every token keeps** the projection. -/
theorem Draft.Projects.step (h : d.Projects) (hf : d.Fits c.mode) (hc : Cut settings c p c')
    (hd : d.Adds p d') : d'.Projects := by
  have hclause := hf.clause fun hdone => stuck_of_done hdone p c' hc
  cases hc.step hf hd with
  | preamble | action => exact h
  | word hk =>
    obtain ⟨kind, text⟩ := p
    cases kind <;> cases hk <;> obtain rfl := Except.ok.inj (hd 0) <;>
      exact .inl (Option.some_ne_none _)
  | mark _ _ hmarks hp =>
    rw [Projects, hp, hmarks.clause, hmarks.segments]
    exact h
  | segment => exact h.imp_right fun h => ⟨h.1, by simp⟩
  | criteria _ hm =>
    exact .inl ((Closes.projection (hclause.trans hm)).projection_ne_none hf.segment_ne_nil h)
  | ordering _ _ _ _ hcloses | finish _ _ hcloses =>
    exact .inl (hcloses.projection_ne_none hf.segment_ne_nil h)
  | connective _ hm | direction _ hm =>
    exact .inl (h.resolve_right fun h => by cases (hclause.trans hm).symm.trans h.1)

theorem Projecting.step (h : Projecting c d) (hc : Cut settings c p c') (hd : d.Adds p d') :
    Projecting c' d' :=
  ⟨h.fits.of_adds hc hd, h.projects.step h.fits hc hd⟩

theorem Projecting.of_pathStart (hf : d.Fits c.mode) (hd : d.clause = .projection)
    (hc : Cut settings c p c') (hk : p.kind = .pathStart) (hadd : d.Adds p d') :
    Projecting c' d' := by
  refine ⟨hf.of_adds hc hadd, .inr ?_⟩
  have hne : p.text ≠ [] := hc.lexeme.text_ne_nil_of_property (by rw [hk]; rfl)
  have h := hadd 0
  rw [Draft.add, hk] at h
  obtain rfl := Except.ok.inj h
  rw [Draft.addSegment_of_ne_nil hne]
  exact ⟨hd, by simp⟩

/-- **A projection that has been begun** is there in the end. -/
theorem Reads.projection_ne_none (h : Reads settings c d c' d') (hp : Projecting c d)
    (hd : c'.mode = .done) : d'.projection ≠ none := by
  have hp' : Projecting c' d' := h.invariant (fun h hc hd => h.step hc hd) hp
  refine hp'.projects.resolve_right fun hpath => hpath.2 (hp'.fits.segments.mpr ?_)
  rw [hd]
  rfl

end Projection

/-! ## Texts that continue a name -/

/-- In the mode, the text is read to its end: behind the action `find`, as the query. -/
def Continues (settings : Settings) (m : Mode) (t : Text) (r : Query) : Prop :=
  ∃ prev c d, prev ≠ some separator ∧
    Reads settings ⟨m, false, prev, t⟩ (.ofQuery m.clause { action := .find }) c d ∧
      c.mode = .done ∧ ∀ n, d.finish n = .ok r

section Continue

variable {settings : Settings} {m : Mode} {b : Bool} {prev : Option Char} {p : Piece} {s t : Text}
  {k : Keyword} {q r : Query} {j : Option Connective} {c c' c'' : Cursor} {d d' d'' : Draft}

/-- Where a keyword stands behind the action `find`, the keyword is cut, or a path begins. -/
theorem Lexeme.of_wide (h : Lexeme settings .wide b prev p s) (hk : k ∈ Keyword.table)
    (ha : Mode.wide.accepts k.kind.category = true) (he : k.text ++ t = p.text ++ s) :
    p = ⟨k.kind, k.text⟩ ∧ s = t ∧ DerivedQuery.atBoundary t = true ∨ p.kind = .pathStart := by
  cases h with
  | finish =>
    obtain ⟨c, cs, ht, -⟩ := Keyword.exists_cons hk
    rw [ht] at he
    cases he
  | limit _ hd ht =>
    have hn : limitRun? settings (k.text ++ t) = none := limitRun?_keyword hk t
    obtain ⟨hdigits, -⟩ := limitRun?_eq_none_iff.mp hn _ (he.trans (List.append_assoc _ _ _))
    exact absurd (ht.symm.trans hdigits) hd
  | @keyword _ _ _ l _ _ hl =>
    have key : ∀ k ∈ Keyword.table, ∀ l ∈ Keyword.table, Mode.wide.accepts k.kind.category = true →
        Mode.wide.accepts l.kind.category = true → k.text <+: l.text → k = l := by decide +kernel
    obtain ⟨hmem, hacc, hlead, -⟩ := longestKeyword?_eq_some_iff.mp hl
    obtain rfl : k = l := by
      rcases List.prefix_or_prefix_of_prefix (List.prefix_append k.text t)
        (he ▸ List.prefix_append l.text s) with hp | hp
      · exact key k hk l hmem ha hacc hp
      · exact (key l hmem k hk hacc ha hp).symm
    obtain rfl := List.append_cancel_left he
    exact .inl ⟨rfl, rfl, leads_append_iff.mp hlead⟩
  | pathStart => exact .inr rfl
  | pathSeparator hm | pathPart hm => cases hm

theorem Cut.eq_of_keyword (h : Cut settings c ⟨k.kind, k.text⟩ c') (hk : k ∈ Keyword.table)
    (hn : c.mode.next? k.kind = some m) :
    ∃ prev, prev ≠ some separator ∧ c' = ⟨m, c.isBulk, prev, c'.rest⟩ := by
  refine ⟨c'.previous, ?_, Cursor.ext (Option.some.inj (h.next?.symm.trans hn)) ?_ rfl rfl⟩
  · rw [h.previous]
    exact getLast?_or_ne_of_mem_words (Keyword.mem_words hk) _
  · rw [h.isBulk, Keyword.isBulkAction_eq_false hk, Bool.or_false]

/-- **What follows `find` and a keyword** can be read on behind the keyword, unless the keyword is
part of a projection. -/
theorem continues_of_parse (hk : k ∈ Keyword.table) (hn : Mode.wide.next? k.kind = some m)
    (hd : (Draft.ofQuery .projection { action := .find }).Adds ⟨k.kind, k.text⟩
      (.ofQuery m.clause { action := .find }))
    (h : parse settings ("find".toList ++ (k.text ++ t)) = .ok r) (hp : r.projection = none) :
    atBoundary t = true ∧ Continues settings m t r := by
  obtain ⟨c', d', hreads, hdone, hq⟩ := parse_eq_ok_iff.mp h
  have hfind : Cut settings (.ofName ("find".toList ++ (k.text ++ t)))
      ⟨.action .find, "find".toList⟩ ⟨.wide, false, some 'd', k.text ++ t⟩ :=
    (Lexeme.leading (a := .find) (Keyword.atBoundary_append hk t)).cut rfl
  have hreads : Reads settings ⟨.wide, false, some 'd', k.text ++ t⟩
      (.ofQuery .projection { action := .find }) c' d' :=
    hreads.of_cut hdone hfind fun _ => rfl
  -- behind the action the keyword is cut, since a path would belong to a projection
  cases hreads with
  | refl => cases hdone
  | @step _ _ p c₁ d₁ _ _ hc hadd hreads =>
    rcases hc.lexeme.of_wide hk (Keyword.accepts_of_next? hk hn) hc.rest with ⟨rfl, hr, ht⟩ | hpath
    · obtain rfl := hd.unique hadd
      obtain ⟨prev, hprev, he⟩ := hc.eq_of_keyword hk hn
      rw [hr] at he
      exact ⟨ht, prev, c', d', hprev, he ▸ hreads, hdone, hq⟩
    · have hfits : (Draft.ofQuery .projection { action := .find }).Fits .wide :=
        Draft.fits_ofQuery _ rfl
      have hne := hreads.projection_ne_none (.of_pathStart hfits rfl hc hpath hadd) hdone
      exact absurd ((Draft.finish_eq_ok_iff.mp (hq 0)).2.1.trans hp) hne

/-- **Behind a query** such a text is read in the same way, if the query takes its order. -/
theorem Continues.behind (h : Continues settings m t r) (hm : m = .criterionStart ∨ m = .orderStart)
    (hp : prev ≠ some separator) (hb : b = true → r.ordering = []) (q : Query)
    (j : Option Connective) :
    ∃ c d, Reads settings ⟨m, b, prev, t⟩ { Draft.ofQuery m.clause q with connective := j } c d ∧
      c.mode = .done ∧ ∀ n, d.finish n = .ok { q with
        criteria := q.criteria ++ joinedBy j r.criteria
        ordering := q.ordering ++ r.ordering } := by
  obtain ⟨prev', c, d, hp', hreads, hdone, hfin⟩ := h
  have hfits : (Draft.ofQuery m.clause { action := .find }).Fits m :=
    Draft.fits_ofQuery _ (by rcases hm with rfl | rfl <;> rfl)
  have hcl : m.clause ≠ .projection := by rcases hm with rfl | rfl <;> nofun
  have ho : d.ordering = r.ordering := (Draft.finish_eq_ok_iff.mp (hfin 0)).2.2.2
  have halike : Cursor.Alike ⟨m, false, prev', t⟩ ⟨m, b, prev, t⟩ :=
    ⟨rfl, rfl, iff_of_false hp' hp⟩
  obtain ⟨e, hreads', hdone'⟩ :=
    hreads.behind (q := q) (j := j) hfits (.inl hcl) hdone halike (fun hb' => ho.trans (hb hb'))
  rw [Draft.behind_ofQuery] at hreads'
  exact ⟨e, _, hreads', hdone', fun n => Draft.finish_behind (hfin n) n⟩

end Continue

/-! ## Keywords behind a name -/

section Join

variable {settings : Settings} {m : Mode} {c : Cursor} {d d' : Draft} {name t : Text} {k : Keyword}
  {q r : Query}

/-- **A keyword may stand behind a name** if its last mode accepts it. -/
theorem Ends.reads_keyword (h : Ends settings name q c d) (hk : k ∈ Keyword.table)
    (hi : k.text ∉ innerWords) (hn : c.mode.next? k.kind = some m) (ht : atBoundary t = true)
    (he : k.kind = .operator .greaterThan ∨ k.kind = .operator .lessThan →
      ¬ Leads "Equal".toList t)
    (hb : k.kind = .ordering → c.isBulk = false) (hd : d.Adds ⟨k.kind, k.text⟩ d') :
    ∃ prev, prev ≠ some separator ∧
      Reads settings (.ofName (name ++ (k.text ++ t))) {} ⟨m, c.isBulk, prev, t⟩ d' := by
  obtain ⟨hinitial, hdone⟩ := Mode.ne_of_accepts (by decide) h.accepts
  have hs : Stops c.mode (k.text ++ t) :=
    stops_keyword hk (Keyword.accepts_of_next? hk hn) hi ht he
  obtain ⟨prev, hp, hreads⟩ : ∃ prev, prev ≠ some separator ∧
      Reads settings (c.withRest (k.text ++ t)) d ⟨m, c.isBulk, prev, t⟩ d' :=
    passes_keyword hk hn ht he hb hd c.previous h.previous
  exact ⟨prev, hp, (h.reads.extend h.rest hinitial hdone hs).trans hreads⟩

theorem Mode.accepts_connective (h : m.accepts .finish = true) (hm : m.clause = .criteria) :
    m.accepts .connective = true := by
  revert h hm
  cases m <;> decide

theorem Mode.accepts_ordering (h : m.accepts .finish = true) (hm : m.clause ≠ .ordering) :
    m.accepts .ordering = true := by
  revert h hm
  cases m <;> decide

/-! ## More conditions -/

/-- **Conditions compose.** Behind a name that ends with a condition, a connective and the text of
other conditions add these to the query, and their order. -/
theorem parse_append_connective (k : Connective) (hn : parse settings name = .ok q)
    (hc : q.criteria ≠ []) (ho : q.ordering = [])
    (ht : parse settings ("findBy".toList ++ t) = .ok r) (hp : r.projection = none)
    (hb : q.isBulk = true → r.ordering = []) :
    parse settings (name ++ k.keyword ++ t) = .ok { q with
      criteria := q.criteria ++ joinedBy (some k) r.criteria
      ordering := r.ordering } := by
  obtain ⟨hbound, hcont⟩ := continues_of_parse (m := .criterionStart)
    (Keyword.mem_table .criteria rfl) rfl
    (fun _ => rfl) ht hp
  obtain ⟨c, d, hend⟩ := exists_ends hn
  have hclause : c.mode.clause = .criteria := by
    cases hm : c.mode.clause with
    | projection => exact absurd hm (hend.criteria hc)
    | criteria => rfl
    | ordering => exact absurd hm (hend.unordered ho)
  have hadd : d.Adds ⟨.connective k, k.keyword⟩
      { Draft.ofQuery .criteria q with connective := some k } := by
    intro n
    have hclose := hend.close n
    rw [Draft.close_of_criteria (hend.clause.trans hclause), hclause] at hclose
    exact congrArg (Except.map _) hclose
  have hword : (Keyword.ofConnective k).text ∉ innerWords := by cases k <;> decide +kernel
  obtain ⟨prev, hprev, hreads⟩ := hend.reads_keyword (Keyword.mem_table (.connective k) rfl) hword
    (if_pos (Mode.accepts_connective hend.accepts hclause)) hbound nofun nofun hadd
  obtain ⟨c', d', hreads', hdone, hfin⟩ :=
    hcont.behind (.inl rfl) hprev (fun h => hb (hend.isBulk ▸ h)) q (some k)
  rw [List.append_assoc]
  refine parse_eq_ok_iff.mpr ⟨c', d', hreads.trans hreads', hdone, fun n => ?_⟩
  rw [hfin, ho, List.nil_append]

theorem parse_append_connective_greaterThanOrEqual :
    ∃ q r : Query, parse {} "findFirst3ByAgeGreaterThan".toList = .ok q ∧
      parse {} ("findBy".toList ++ "EqualNotInOrderByNick".toList) = .ok r ∧
      q.criteria ≠ [] ∧ q.ordering = [] ∧ r.projection = none ∧ q.isBulk = false ∧
      parse {} ("findFirst3ByAgeGreaterThan".toList ++ Connective.or.keyword ++
        "EqualNotInOrderByNick".toList) = .ok { q with
          criteria := q.criteria ++ joinedBy (some .or) r.criteria
          ordering := r.ordering } := by
  have hn : parse {} "findFirst3ByAgeGreaterThan".toList = .ok
      { action := .find
        projection := some (.first 3)
        criteria :=
          [⟨none, { property := ⟨["age".toList], by decide, by decide⟩
                    operator := .greaterThan }⟩] } := by decide +kernel
  have ht : parse {} ("findBy".toList ++ "EqualNotInOrderByNick".toList) = .ok
      { action := .find
        criteria :=
          [⟨none, { property := ⟨["equal".toList], by decide, by decide⟩
                    operator := .isIn, negated := true }⟩]
        ordering := [{ property := ⟨["nick".toList], by decide, by decide⟩ }] } := by
    decide +kernel
  exact ⟨_, _, hn, ht, List.cons_ne_nil _ _, rfl, rfl, rfl,
    parse_append_connective .or hn (List.cons_ne_nil _ _) rfl ht rfl nofun⟩

/-! ## An order -/

theorem Ends.parse_ordering (h : Ends settings name q c d) (ho : q.ordering = [])
    (hb : q.isBulk = false) (ht : parse settings ("findOrderBy".toList ++ t) = .ok r)
    (hp : r.projection = none) (hc : r.criteria = []) :
    parse settings (name ++ ("OrderBy".toList ++ t)) = .ok { q with ordering := r.ordering } := by
  obtain ⟨hbound, hcont⟩ := continues_of_parse (m := .orderStart)
    (Keyword.mem_table .ordering rfl) rfl
    (fun _ => rfl) ht hp
  have haccepts := Mode.accepts_ordering h.accepts (h.unordered ho)
  have hbulk : c.isBulk = false := h.isBulk.trans hb
  have hword : "OrderBy".toList ∉ innerWords := by decide +kernel
  have hadd : d.Adds ⟨.ordering, "OrderBy".toList⟩ (.ofQuery .ordering q) := fun n =>
    congrArg (Except.map _) (h.close n)
  obtain ⟨prev, hprev, hreads⟩ :=
    h.reads_keyword (Keyword.mem_table .ordering rfl) hword (if_pos haccepts)
    hbound nofun (fun _ => hbulk) hadd
  rw [hbulk] at hreads
  obtain ⟨c', d', hreads', hdone, hfin⟩ := hcont.behind (b := false) (.inr rfl) hprev nofun q none
  refine parse_eq_ok_iff.mpr ⟨c', d', hreads.trans hreads', hdone, fun n => ?_⟩
  rw [hfin, ho, hc, List.nil_append, joinedBy, List.append_nil]

/-- Where an action on many records has been cut, the word OrderBy stops the scan. -/
theorem nextPiece_eq_orderedBulk {prev : Option Char} (ha : m.accepts .ordering = true)
    (hp : prev ≠ some separator) (ht : atBoundary t = true) :
    nextPiece settings ⟨m, true, prev, "OrderBy".toList ++ t⟩ = .error (.orderedBulk 0) := by
  obtain ⟨hi, hd⟩ := Mode.ne_of_accepts (by decide) ha
  have hlong : longestKeyword? m.accepts ("OrderBy".toList ++ t) =
      some ⟨"OrderBy".toList, .ordering⟩ :=
    Keyword.longestKeyword?_append (Keyword.mem_table .ordering rfl) ha ht nofun
  have hlimit : NoLimit settings m ("OrderBy".toList ++ t) :=
    fun _ => limitRun?_keyword (Keyword.mem_table .ordering rfl) t
  have hpart : partPiece? m prev ("OrderBy".toList ++ t) = none :=
    partPiece?_cons_eq_none (fun _ => hp) (by decide)
  rw [nextPiece_eq_front hpart, nextRun_eq_clauseRun hi hd (by simp), clauseRun_of_noLimit hlimit,
    hlong]
  rfl

theorem Ends.parse_ordering_of_isBulk (h : Ends settings name q c d) (ho : q.ordering = [])
    (hb : q.isBulk = true) (ht : atBoundary t = true) :
    parse settings (name ++ ("OrderBy".toList ++ t)) = .error (.orderedBulk (byteLength name)) := by
  obtain ⟨hi, hd⟩ := Mode.ne_of_accepts (by decide) h.accepts
  have haccepts := Mode.accepts_ordering h.accepts (h.unordered ho)
  have hs : Stops c.mode ("OrderBy".toList ++ t) :=
    stops_keyword (Keyword.mem_table .ordering rfl) haccepts (by decide +kernel) ht nofun
  obtain ⟨ps, hcuts, -⟩ := (h.reads.extend h.rest hi hd hs).exists_cuts
  have htext : name = textOf ps := List.append_cancel_right hcuts.rest_eq
  have hstop : nextPiece settings (c.withRest ("OrderBy".toList ++ t)) =
      .error (.orderedBulk 0) := by
    rw [Cursor.withRest, h.isBulk.trans hb]
    exact nextPiece_eq_orderedBulk haccepts h.previous ht
  rw [parse_eq_error_iff, tokenize_eq_error_iff]
  exact ⟨ps, _, _, hcuts, hd, hstop, by rw [htext]; rfl⟩

/-- **The order composes.** Behind a name without an order, an order becomes that of the query. If
the action is one on many records, the name is rejected where the order begins. -/
theorem parse_append_ordering (hn : parse settings name = .ok q) (ho : q.ordering = []) :
    (q.isBulk = false → ∀ t r, parse settings ("findOrderBy".toList ++ t) = .ok r →
        r.projection = none → r.criteria = [] →
          parse settings (name ++ "OrderBy".toList ++ t) = .ok { q with ordering := r.ordering }) ∧
      (q.isBulk = true → ∀ t, atBoundary t = true →
        parse settings (name ++ "OrderBy".toList ++ t) =
          .error (.orderedBulk (byteLength name))) := by
  obtain ⟨c, d, hend⟩ := exists_ends hn
  constructor
  · intro hb t r ht hp hc
    rw [List.append_assoc]
    exact hend.parse_ordering ho hb ht hp hc
  · intro hb t ht
    rw [List.append_assoc]
    exact hend.parse_ordering_of_isBulk ho hb ht

theorem parse_append_ordering_order :
    ∃ q q' r : Query, parse {} "findOrder".toList = .ok q ∧
      parse {} "deleteByOrder_id".toList = .ok q' ∧
      parse {} ("findOrderBy".toList ++ "AgeDesc".toList) = .ok r ∧
      q.ordering = [] ∧ q.isBulk = false ∧ r.projection = none ∧ r.criteria = [] ∧
      r.ordering ≠ [] ∧
      parse {} ("findOrder".toList ++ "OrderBy".toList ++ "AgeDesc".toList) =
        .ok { q with ordering := r.ordering } ∧
      q'.ordering = [] ∧ q'.isBulk = true ∧ atBoundary "AgeDesc".toList = true ∧
      parse {} ("deleteByOrder_id".toList ++ "OrderBy".toList ++ "AgeDesc".toList) =
        .error (.orderedBulk 16) := by
  have hn : parse {} "findOrder".toList = .ok
      { action := .find
        projection := some (.ofProperty ⟨["order".toList], by decide, by decide⟩) } := by
    decide +kernel
  have hn' : parse {} "deleteByOrder_id".toList = .ok
      { action := .delete
        criteria :=
          [⟨none, { property := ⟨["order".toList, "id".toList], by decide, by decide⟩ }⟩] } := by
    decide +kernel
  have ht : parse {} ("findOrderBy".toList ++ "AgeDesc".toList) = .ok
      { action := .find
        ordering := [⟨⟨["age".toList], by decide, by decide⟩, .desc⟩] } := by decide +kernel
  exact ⟨_, _, _, hn, hn', ht, rfl, rfl, rfl, rfl, List.cons_ne_nil _ _,
    (parse_append_ordering hn rfl).1 rfl _ _ ht rfl rfl, rfl, rfl, rfl,
    (parse_append_ordering hn' rfl).2 rfl _ rfl⟩

end Join

end DerivedQuery
