import DerivedQuery.Proofs.Beginning
import DerivedQuery.Proofs.Following
import DerivedQuery.Proofs.Joining

/-!
# More order items

Behind a direction the next order item may follow at once, or behind a separator, in which case its
first letter may be in lower case.

* `EndsWithDirection`: names whose last order item has a direction;
* `Directed`, `exists_directed`: whatever follows the direction, it is cut, and its item closed;
* `ReadsItems`, `Continues.exists_segment`: the text of order items can be read as more items of a
  query;
* **`parse_append_orderItems`**: with a separator or without, the items are the same.
-/

namespace DerivedQuery

/-- The last token in front of the end of the name is a direction. -/
def EndsWithDirection (settings : Settings) (name : Text) : Prop :=
  ∃ ts t e r, tokenize settings name = .ok (ts ++ [t, e]) ∧ t.kind = .direction r

/-- Behind the direction that ends a name the order items of the query are closed, in front of any
text that does not go on with the word. -/
structure Directed (settings : Settings) (name : Text) (q : Query) (ps : List Piece)
    (prev : Option Char) : Prop where
  text : name = textOf ps
  previous : prev ≠ some separator
  draft : (place 0 ps).foldlM Draft.add {} = .ok (.ofQuery .ordering q)
  cuts : ∀ s, atBoundary s = true →
    Cuts settings (.ofName (name ++ s)) ps ⟨.directed, false, prev, s⟩

/-! ## Behind a direction -/

section Directed

variable {settings : Settings} {name s t : Text} {q : Query} {c c' c₁ : Cursor} {d d' : Draft}
  {p f : Piece} {ps qs : List Piece} {r : Direction} {m : Mode}

theorem longestKeyword?_endsLimit_direction (r : Direction) (s : Text) :
    longestKeyword? endsLimit (r.keyword ++ s) = none := by
  have key : ∀ k ∈ Keyword.table, endsLimit k.kind.category = true →
      ¬ k.text <+: r.keyword ∧ ¬ r.keyword <+: k.text := by cases r <;> decide +kernel
  refine longestKeyword?_eq_none_iff.mpr fun k hk ha hl => ?_
  rcases List.prefix_or_prefix_of_prefix hl.isPrefix (List.prefix_append r.keyword s) with h | h
  · exact (key k hk ha).1 h
  · exact (key k hk ha).2 h

theorem Mode.of_next?_direction {m' : Mode} (h : m.next? (.direction r) = some m') :
    m = .ordered ∧ m' = .directed := by
  obtain ⟨ha, hm⟩ := Option.ite_none_right_eq_some.mp h
  refine ⟨?_, (Option.some.inj hm).symm⟩
  revert ha
  cases m <;> decide

/-- **A row of lexemes that ends with a direction** stays in front of any text that does not go on
with its word. -/
theorem Cuts.exchange_direction {c₀ : Cursor} (h : Cuts settings c₀ qs c₁)
    (hcut : Cut settings c₁ p c) (hk : p.kind = .direction r) (hs : atBoundary s = true) :
    Cuts settings (c₀.withRest (textOf (qs ++ [p]) ++ s)) (qs ++ [p]) (c.withRest s) := by
  have hn := hcut.next?
  rw [hk] at hn
  have hm : c₁.mode = .ordered := (Mode.of_next?_direction hn).1
  obtain ⟨htext, -, hp, ho⟩ := hcut.lexeme.of_keyword (Keyword.mem_table (.direction r) rfl) hk
  obtain ⟨kind, text⟩ := p
  obtain rfl : kind = .direction r := hk
  obtain rfl : text = r.keyword := htext
  have haccepts : c₁.mode.accepts .direction = true := by rw [hm]; rfl
  have hprev : c₁.previous ≠ some separator := hp (by rw [hm]; rfl)
  have hboundary : atBoundary c₁.rest = true :=
    hcut.rest ▸ Keyword.atBoundary_append (Keyword.mem_table (.direction r) rfl) c.rest
  have hword : r.keyword ∉ innerWords := by cases r <;> decide +kernel
  refine h.replace hcut ?_ (.of_detached ?_ hprev (fun _ => hboundary) ?_ fun _ => ⟨?_, ?_, ?_⟩)
  · have hmem := Keyword.mem_table (.direction r) rfl
    exact .keyword hp (Keyword.longestKeyword?_append hmem haccepts hs nofun)
      ho
  · rw [hm]
    nofun
  · exact Keyword.detached (Keyword.mem_table (.direction r) rfl) hword s
  · exact segmentContinues_keyword (Keyword.mem_table (.direction r) rfl) haccepts hs nofun
  · cases r <;> exact List.cons_ne_nil _ _
  · exact longestKeyword?_endsLimit_direction r s

/-- **The end of a name** is cut behind one row of lexemes. -/
theorem Ends.eq_of_cut (h : Ends settings name q c d) (hcuts : Cuts settings (.ofName name) ps c₁)
    (hlast : Cut settings c₁ f c') (hdone : c'.mode = .done) :
    c₁ = c ∧ (place 0 ps).foldlM Draft.add {} = .ok d := by
  obtain ⟨qs, hcuts', hfold⟩ := h.reads.exists_cuts
  obtain ⟨e, hfinish, -⟩ : ∃ e, Cut settings c ⟨.finish, []⟩ e ∧ e.rest = [] :=
    exists_cut_of_lexeme h.rest (.finish h.accepts)
  have hstuck : Stuck settings e := stuck_of_done (Mode.eq_done_of_finish hfinish.next?)
  obtain ⟨hrows, -⟩ := (hcuts.append hlast.cuts).unique (stuck_of_done hdone)
    (hcuts'.append hfinish.cuts) hstuck
  obtain ⟨rfl, -⟩ := List.append_inj' hrows rfl
  exact ⟨hcuts.target_unique hcuts', hfold 0⟩

theorem Ends.eq_ofQuery (h : Ends settings name q c d) (hm : c.mode = .directed) :
    d = .ofQuery .ordering q := by
  have hfits : d.Fits c.mode := h.reads.upheld.fits
  have hclose := h.close 0
  have hclause : d.clause = .ordering := h.clause.trans (by rw [hm]; rfl)
  have hsegments : d.segments = [] := hfits.segments.mpr (by rw [hm]; rfl)
  rw [Draft.close, hclause] at hclose
  simp only [hsegments, if_true, hm] at hclose
  exact Except.ok.inj hclose

/-- **A name that ends with a direction** is closed there. -/
theorem exists_directed (hn : parse settings name = .ok q) (hd : EndsWithDirection settings name) :
    ∃ ps prev, Directed settings name q ps prev := by
  obtain ⟨ts, t, e, r, htokens, hk⟩ := hd
  obtain ⟨ps, c', hcuts, hdone, hps⟩ := tokenize_eq_ok_iff.mp htokens
  obtain ⟨qs, rs, rfl, -, hrs⟩ := exists_of_place_eq_append hps.symm
  obtain ⟨p, f, rfl⟩ : ∃ p f, rs = [p, f] :=
    List.length_eq_two.mp (by rw [← length_place, ← hrs]; rfl)
  obtain ⟨rfl, -⟩ := List.cons.inj hrs
  have hk : p.kind = .direction r := hk
  obtain ⟨c₁, hfront, hback⟩ := hcuts.exists_of_append
  obtain ⟨c, d, hend⟩ := exists_ends hn
  cases hback with
  | cons hcut hback =>
    cases hback with
    | cons hlast hnil =>
      cases hnil
      have hname := hfront.append hcut.cuts
      obtain ⟨rfl, hdraft⟩ := hend.eq_of_cut hname hlast hdone
      have hm := (Mode.of_next?_direction (hk ▸ hcut.next?)).2
      have hbulk : q.isBulk = false := by
        by_contra hb
        have ho : q.ordering = [] := ((renderable_of_parse hn).bulk (Bool.not_eq_false _ ▸ hb)).2
        exact hend.unordered ho (by rw [hm]; rfl)
      have htext : name = textOf (qs ++ [p]) := by
        simpa [Cursor.ofName, hend.rest] using hname.rest_eq
      rw [hend.eq_ofQuery hm] at hdraft
      refine ⟨qs ++ [p], _, htext, hend.previous, hdraft, fun s hs => ?_⟩
      have hcuts := hfront.exchange_direction hcut hk hs
      rwa [← htext, Cursor.withRest, Cursor.withRest, hm, hend.isBulk, hbulk] at hcuts

end Directed

/-! ## Items that follow -/

section Items

variable {settings : Settings} {name s t : Text} {q r : Query} {m : Mode} {prev : Option Char}
  {d d' : Draft} {ps : List Piece} {e : Char}

theorem Mode.of_next?_orderStart {k : Kind} {m' : Mode} (h : Mode.orderStart.next? k = some m') :
    k = .pathStart ∧ m' = .ordered := by
  cases k <;> cases h
  exact ⟨rfl, rfl⟩

theorem Draft.Adds.recase {kind : Kind} {c : Char} {cs : Text} (h : d.Adds ⟨kind, c :: cs⟩ d')
    (hk : kind = .pathStart) (he : e.toLower = c.toLower) : d.Adds ⟨kind, e :: cs⟩ d' := by
  intro n
  have hadd := h n
  have hsame : uncapitalize (e :: cs) = uncapitalize (c :: cs) := by
    rw [uncapitalize, uncapitalize, he]
  subst hk
  simp only [Draft.add, Draft.addSegment_of_ne_nil (List.cons_ne_nil _ _)] at hadd ⊢
  rwa [hsame]

theorem exists_cut_orderItem {cs : Text} (hm : m = .orderStart ∨ m = .directed)
    (he : startsPath prev e = true) (ht : segmentTail Mode.ordered.accepts (cs ++ s) = cs) :
    ∃ prev', prev' ≠ some separator ∧
      Cut settings ⟨m, false, prev, e :: cs ++ s⟩ ⟨.pathStart, e :: cs⟩
        ⟨.ordered, false, prev', s⟩ := by
  have hclear : Clear settings m (e :: cs ++ s) :=
    clear_of_mode (by rcases hm with rfl | rfl <;> simp) _
  refine ⟨(e :: cs).getLast?.or prev, getLast?_or_ne_separator (isAlpha_of_startsPath he) ht, ?_⟩
  rcases hm with rfl | rfl <;>
    exact (Lexeme.pathStart rfl rfl he hclear.1 hclear.2 ht).cut rfl

/-- In the mode and behind the character, the text is read to its end as more order items of the
query `q`, and makes `q'` of it. -/
def ReadsItems (settings : Settings) (m : Mode) (prev : Option Char) (s : Text) (q q' : Query) :
    Prop :=
  ∃ c d, Reads settings ⟨m, false, prev, s⟩ (.ofQuery .ordering q) c d ∧ c.mode = .done ∧
    ∀ n, d.finish n = .ok q'

/-- **The text of an order** can be read as more order items of a query, with its first letter in
any case in which a path may start with it. -/
theorem Continues.exists_segment (h : Continues settings .orderStart t r) :
    ∃ c s, t = c :: s ∧ c.isUpper = true ∧
      ∀ (q : Query) (m : Mode) (prev : Option Char) (e : Char),
        m = .orderStart ∨ m = .directed → startsPath prev e = true → e.toLower = c.toLower →
          ReadsItems settings m prev (e :: s) q { q with
            criteria := q.criteria ++ joinedBy none r.criteria
            ordering := q.ordering ++ r.ordering } := by
  obtain ⟨prev₀, c', d', hprev₀, hreads, hdone, hfin⟩ := h
  cases hreads with
  | refl => cases hdone
  | @step _ _ p c₁ d₁ _ _ hcut hadd hreads =>
    obtain ⟨hk, hm₁⟩ := Mode.of_next?_orderStart hcut.next?
    obtain ⟨c, cs, htext, hstart, htail⟩ := hcut.lexeme.of_pathStart hk rfl
    obtain ⟨kind, text⟩ := p
    obtain rfl : text = c :: cs := htext
    obtain rfl : kind = .pathStart := hk
    refine ⟨c, cs ++ c₁.rest, hcut.rest, by simpa [startsPath, hprev₀] using hstart, ?_⟩
    intro q m prev e hm he hlow
    have hfits : (Draft.ofQuery .ordering { action := .find }).Fits .orderStart :=
      Draft.fits_ofQuery _ rfl
    have hadd' : (Draft.ofQuery .ordering q).Adds ⟨.pathStart, e :: cs⟩ (d₁.behind q none) := by
      have hbehind : ((Draft.ofQuery .ordering { action := .find }).behind q none).Adds
          ⟨.pathStart, e :: cs⟩ (d₁.behind q none) :=
        (hadd.behind (by decide) (by simp) rfl).recase rfl hlow
      rwa [Draft.behind_ofQuery] at hbehind
    -- behind their first segments both texts go on in the same way
    obtain ⟨prev₁, hprev₁, hcut'⟩ : ∃ prev₁, prev₁ ≠ some separator ∧
        Cut settings ⟨m, false, prev, e :: cs ++ c₁.rest⟩ ⟨.pathStart, e :: cs⟩
          ⟨.ordered, false, prev₁, c₁.rest⟩ := exists_cut_orderItem hm he htail
    have halike : c₁.Alike ⟨.ordered, false, prev₁, c₁.rest⟩ := by
      refine ⟨hm₁.symm, rfl, iff_of_false ?_ hprev₁⟩
      rw [hcut.previous]
      exact getLast?_or_ne_separator (isAlpha_of_startsPath hstart) htail
    obtain ⟨e', hreads', hdone'⟩ : ∃ e', Reads settings ⟨.ordered, false, prev₁, c₁.rest⟩
        (d₁.behind q none) e' (d'.behind q none) ∧ e'.mode = .done :=
      hreads.behind (hfits.of_adds hcut hadd) (.inl (by rw [hm₁]; decide)) hdone halike
        fun hb => absurd hb Bool.false_ne_true
    exact ⟨e', _, .step hcut' hadd' hreads', hdone', fun n => Draft.finish_behind (hfin n) n⟩

theorem Directed.parse_ok (h : Directed settings name q ps prev) (hs : atBoundary s = true)
    (hr : ReadsItems settings .directed prev s q r) : parse settings (name ++ s) = .ok r :=
  ((h.cuts s hs).parse_ok_iff h.draft).mpr hr

theorem ReadsItems.separator (h : ReadsItems settings .orderStart (some separator) (e :: s) q r)
    (hs : settings.separatedOrderItems = true) (he : e.isAlpha = true) :
    ReadsItems settings .directed prev (DerivedQuery.separator :: e :: s) q r := by
  obtain ⟨c, d, hreads, hdone, hfin⟩ := h
  have hsep : Lexeme settings .directed false prev ⟨.separator, [DerivedQuery.separator]⟩ (e :: s) :=
    .itemSeparator hs he
  exact ⟨c, d, (hsep.reads rfl rfl fun _ => rfl).trans hreads, hdone, hfin⟩

/-- A separator behind a direction, which the settings may forbid. -/
theorem nextPiece_directed_separator (prev : Option Char) (s : Text)
    (hs : settings.separatedOrderItems = false) :
    nextPiece settings ⟨.directed, false, prev, separator :: s⟩ =
      .error (.malformed 0 [.property, .finish]) := by
  have hk : longestKeyword? Mode.directed.accepts (separator :: s) = none :=
    longestKeyword?_cons_eq_none _ (by decide)
  rw [nextPiece_eq_front (partPiece?_eq_none rfl), nextRun_eq_clauseRun (by decide) (by decide)
    (List.cons_ne_nil _ _), clauseRun_of_noLimit (fun ha => absurd ha (by decide)), hk]
  simp [plainRun, startsPath, separatorRun, hs, Run.front, Run.stop, separator]

/-- **Order items compose.** Behind a name that ends with a direction, the text of other order items
adds these to the query. A separator in front of them says nothing, and lets them begin in lower
case, unless the settings forbid it. -/
theorem parse_append_orderItems (hn : parse settings name = .ok q)
    (hd : EndsWithDirection settings name)
    (ht : parse settings ("findOrderBy".toList ++ t) = .ok r) (hp : r.projection = none)
    (hc : r.criteria = []) :
    parse settings (name ++ t) = .ok { q with ordering := q.ordering ++ r.ordering } ∧
      ∀ s, s = t ∨ s = uncapitalize t → parse settings (name ++ separator :: s) =
        if settings.separatedOrderItems then .ok { q with ordering := q.ordering ++ r.ordering }
        else .error (.malformed (byteLength name) [.property, .finish]) := by
  obtain ⟨hbound, hcont⟩ := continues_of_parse (m := .orderStart)
    (Keyword.mem_table .ordering rfl) rfl
    (fun _ => rfl) ht hp
  obtain ⟨c, cs, rfl, hup, hitems⟩ := hcont.exists_segment
  obtain ⟨ps, prev, hdir⟩ := exists_directed hn hd
  simp only [hc, joinedBy, List.append_nil] at hitems
  refine ⟨hdir.parse_ok hbound (hitems q _ prev c (.inr rfl) (by simp [startsPath, hup]) rfl), ?_⟩
  intro s hs
  -- the first letter may be in lower case
  obtain ⟨e, rfl, he, hlow⟩ : ∃ e, s = e :: cs ∧ e.isAlpha = true ∧ e.toLower = c.toLower := by
    rcases hs with rfl | rfl
    · exact ⟨c, rfl, isAlpha_of_isUpper hup, rfl⟩
    · refine ⟨c.toLower, rfl, ?_, Char.toLower_toLower_eq_toLower c⟩
      exact isAlpha_of_isLower (by rw [Char.isLower_toLower_eq_isAlpha, isAlpha_of_isUpper hup])
  cases hset : settings.separatedOrderItems with
  | true =>
    have hstart : startsPath (some separator) e = true := by simp [startsPath, he]
    exact hdir.parse_ok rfl ((hitems q _ _ e (.inl rfl) hstart hlow).separator hset he)
  | false =>
    rw [if_neg Bool.false_ne_true, parse_eq_error_iff, (hdir.cuts _ rfl).tokenize_error_iff]
    exact ⟨[], _, _, .nil _, by simp, nextPiece_directed_separator prev _ hset,
      by rw [List.append_nil, ← hdir.text]; rfl⟩

theorem parse_append_orderItems_byName :
    ∃ q r : Query, (∀ settings ∈ [({} : Settings), { separatedOrderItems := false }],
        parse settings "findOrderByAgeAsc".toList = .ok q ∧
        EndsWithDirection settings "findOrderByAgeAsc".toList ∧
        parse settings ("findOrderBy".toList ++ "ByNameDescId".toList) = .ok r ∧
        parse settings ("findOrderByAgeAsc".toList ++ "ByNameDescId".toList) =
          .ok { q with ordering := q.ordering ++ r.ordering }) ∧
      r.projection = none ∧ r.criteria = [] ∧ r.ordering.length = 2 ∧
      parse {} ("findOrderByAgeAsc".toList ++ separator :: "byNameDescId".toList) =
        .ok { q with ordering := q.ordering ++ r.ordering } ∧
      parse { separatedOrderItems := false }
          ("findOrderByAgeAsc".toList ++ separator :: "byNameDescId".toList) =
        .error (.malformed 17 [.property, .finish]) := by
  have hn : ∀ settings ∈ [({} : Settings), { separatedOrderItems := false }],
      parse settings "findOrderByAgeAsc".toList = .ok
        { action := .find
          ordering := [⟨⟨["age".toList], by decide, by decide⟩, .asc⟩] } := by decide +kernel
  have hd : ∀ settings ∈ [({} : Settings), { separatedOrderItems := false }],
      EndsWithDirection settings "findOrderByAgeAsc".toList := by
    have htokens : ∀ settings ∈ [({} : Settings), { separatedOrderItems := false }],
        tokenize settings "findOrderByAgeAsc".toList = .ok
          ([⟨.action .find, "find".toList, 0⟩, ⟨.ordering, "OrderBy".toList, 4⟩,
              ⟨.pathStart, "Age".toList, 11⟩] ++
            [⟨.direction .asc, "Asc".toList, 14⟩, ⟨.finish, [], 17⟩]) := by decide +kernel
    exact fun settings hs => ⟨_, _, _, _, htokens settings hs, rfl⟩
  have ht : ∀ settings ∈ [({} : Settings), { separatedOrderItems := false }],
      parse settings ("findOrderBy".toList ++ "ByNameDescId".toList) = .ok
        { action := .find
          ordering := [⟨⟨["byName".toList], by decide, by decide⟩, .desc⟩,
            ⟨⟨["id".toList], by decide, by decide⟩, .default⟩] } := by decide +kernel
  have h (settings : Settings) (hs : settings ∈ [({} : Settings), { separatedOrderItems := false }]) :=
    parse_append_orderItems (hn settings hs) (hd settings hs) (ht settings hs) rfl rfl
  refine ⟨_, _, fun settings hs => ⟨hn settings hs, hd settings hs, ht settings hs,
    (h settings hs).1⟩, rfl, rfl, rfl, ?_, ?_⟩
  · exact (h {} (by simp)).2 _ (.inr rfl)
  · exact (h { separatedOrderItems := false } (by simp)).2 _ (.inr rfl)

end Items

end DerivedQuery
