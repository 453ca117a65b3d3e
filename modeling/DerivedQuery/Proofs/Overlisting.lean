import DerivedQuery.Proofs.Expected
import DerivedQuery.Proofs.Step

/-!
# What is overlisted cannot stand

Behind what stands in front of a diagnostic, a token of an overlisted category would be read
together with the letters before it, or is refused.

* `Reaches`: behind a text, a lexeme of the category is cut;
* `Apart.of_reaches`: then no word is read across the position;
* `not_offered_of_overlisted`: a category that is overlisted cannot stand there;
* **`offered_iff_not_overlisted`**: what is listed can stand there exactly if it is not overlisted.
-/

namespace DerivedQuery

/-! ## Rows of lexemes of one text -/

/-- Behind the text `w`, a lexeme of the category is cut. -/
def Reaches (settings : Settings) (c : Cursor) (w : Text) (category : Category) : Prop :=
  ∃ ps c' p c'', Cuts settings c ps c' ∧ textOf ps = w ∧ Cut settings c' p c'' ∧
    p.kind.category = category

section Rows

variable {settings : Settings} {name before after u v : Text} {c c' c'' c₁ : Cursor}
  {ps qs : List Piece} {w s : Text} {category : Category}

theorem Cuts.eq_or_done_of_text_eq_nil (h : Cuts settings c ps c') (ht : textOf ps = []) :
    c = c' ∨ c'.mode = .done := by
  cases h with
  | nil => exact .inl rfl
  | cons hcut t =>
    rw [textOf_cons, List.append_eq_nil_iff] at ht
    have hkind := by_contra fun hk => hcut.lexeme.text_ne_nil hk ht.1
    have hdone := Mode.eq_done_of_finish (hkind ▸ hcut.next?)
    cases t with
    | nil => exact .inr hdone
    | cons hcut' _ => exact absurd hcut' (stuck_of_done hdone _ _)

theorem Reaches.of_cuts (h : Cuts settings c qs c₁) (hd : c₁.mode ≠ .done)
    (hr : Reaches settings c (textOf qs ++ w) category) : Reaches settings c₁ w category := by
  obtain ⟨ps, c', p, c'', hcuts, ht, hcut, hk⟩ := hr
  rcases h.comparable hcuts with ⟨rs, rfl, hrs⟩ | ⟨rs, rfl, hrs⟩
  · rw [textOf_append] at ht
    exact ⟨rs, c', p, c'', hrs, List.append_cancel_left ht, hcut, hk⟩
  · rw [textOf_append, List.append_assoc, List.self_eq_append_right, List.append_eq_nil_iff] at ht
    obtain ⟨hnil, rfl⟩ := ht
    obtain rfl := (hrs.eq_or_done_of_text_eq_nil hnil).resolve_right hd
    exact ⟨[], c', p, c'', .nil c', rfl, hcut, hk⟩

theorem Reaches.exists_cut (h : Reaches settings c [] category) :
    ∃ p c', Cut settings c p c' ∧ p.kind.category = category := by
  obtain ⟨ps, c', p, c'', hcuts, ht, hcut, hk⟩ := h
  rcases hcuts.eq_or_done_of_text_eq_nil ht with rfl | hd
  · exact ⟨p, c'', hcut, hk⟩
  · exact absurd hcut (stuck_of_done hd _ _)

theorem Reaches.exists_front (h : Reaches settings c w category) (hw : w ≠ []) :
    ∃ p c', Cut settings c p c' ∧ p.text <+: w := by
  obtain ⟨ps, c', p, c'', hcuts, rfl, -, -⟩ := h
  cases hcuts with
  | nil => exact absurd rfl hw
  | cons hcut _ => exact ⟨_, _, hcut, List.prefix_append _ _⟩

theorem eq_of_append_of_byteLength (h : u ++ v = before ++ after)
    (hn : byteLength u = byteLength before) : u = before := by
  have hnil : ∀ x, byteLength x = 0 → x = [] := fun x hx =>
    List.length_eq_zero_iff.mp (Nat.le_zero.mp (hx ▸ length_le_byteLength x))
  rcases List.append_eq_append_iff.mp h with ⟨x, rfl, -⟩ | ⟨x, rfl, -⟩ <;>
    rw [byteLength_append] at hn <;> rw [hnil x (by omega), List.append_nil]

theorem Offered.exists_reaches (h : Offered settings (before ++ after) (byteLength before) category)
    (hc : category ≠ .digits) :
    ∃ s, Reaches settings (.ofName (before ++ s)) before category := by
  obtain ⟨u, v, s, ts, hname, hn, htok, t, ht, hat⟩ := h
  obtain rfl := eq_of_append_of_byteLength hname.symm hn
  obtain ⟨us, vs, rfl⟩ := List.append_of_mem ht
  obtain ⟨ps, c, hcuts, -, hplace⟩ := tokenize_eq_ok_iff.mp htok
  obtain ⟨qs, rs, rfl, -, hrest⟩ := exists_of_place_eq_append hplace.symm
  obtain ⟨c₁, hfront, hback⟩ := hcuts.exists_of_append
  refine ⟨s, ?_⟩
  cases hback with
  | nil => cases hrest
  | @cons _ p c₂ _ _ hcut _ =>
    rw [place_cons, List.cons.injEq, Nat.zero_add] at hrest
    obtain ⟨rfl, -⟩ := hrest
    cases hat with
    | start hp =>
      have htext := eq_of_append_of_byteLength hfront.rest_eq.symm hp
      exact ⟨qs, c₁, p, c₂, hfront, htext, hcut, rfl⟩
    | digit => exact absurd rfl hc

end Rows

/-! ## What begins there -/

/-- A text that begins with the category, of those that may be overlisted. -/
inductive Begins : Category → Text → Prop
  | criteria {r} (hr : atBoundary r = true) : Begins .criteria ("By".toList ++ r)
  | ordering {r} (hr : atBoundary r = true) : Begins .ordering ("OrderBy".toList ++ r)
  | separator {r} : Begins .separator (separator :: r)
  | finish : Begins .finish []

section Begins

variable {settings : Settings} {m m' within : Mode} {b : Bool} {prev : Option Char} {p : Piece}
  {r s t u w : Text} {c c' c₁ : Cursor} {category : Category} {ms : List Move}

theorem Overlisted.exists_begins (h : Overlisted settings ms category) :
    ∃ s, Begins category s := by
  cases h with
  | bulk => exact ⟨_, .ordering (r := []) rfl⟩
  | separator => exact ⟨_, .separator (r := [])⟩
  | segment | path => exact ⟨_, .criteria (r := []) rfl⟩
  | limit _ _ _ hc =>
    rcases hc with rfl | rfl | rfl
    · exact ⟨_, .criteria (r := []) rfl⟩
    · exact ⟨_, .ordering (r := []) rfl⟩
    · exact ⟨_, .finish⟩

theorem Kind.eq_of_category {k l : Kind} (h : k.category = l.category)
    (hl : l = .criteria ∨ l = .ordering ∨ l = .separator ∨ l = .finish) : k = l := by
  rcases hl with rfl | rfl | rfl | rfl <;> cases k <;> first | rfl | cases h

theorem Begins.of_lexeme (h : Begins category t) (hl : Lexeme settings m b prev p r)
    (hk : p.kind.category = category) : Begins category (p.text ++ r) := by
  cases h with
  | criteria =>
    have hkind : p.kind = .criteria := Kind.eq_of_category hk (by simp)
    obtain ⟨ht, hb, -⟩ := hl.of_keyword (Keyword.mem_table .criteria rfl) hkind
    rw [ht]
    exact .criteria hb
  | ordering =>
    have hkind : p.kind = .ordering := Kind.eq_of_category hk (by simp)
    obtain ⟨ht, hb, -⟩ := hl.of_keyword (Keyword.mem_table .ordering rfl) hkind
    rw [ht]
    exact .ordering hb
  | separator =>
    have hkind : p.kind = .separator := Kind.eq_of_category hk (by simp)
    rw [(hl.of_separator hkind).1]
    exact .separator
  | finish =>
    have hkind : p.kind = .finish := Kind.eq_of_category hk (by simp)
    obtain ⟨ht, hr⟩ := hl.of_finish hkind
    rw [ht, hr]
    exact .finish

theorem Begins.behind (h : Begins category s) (hm : category ∈ m.expected) :
    Behind m category s := by
  cases h with
  | criteria hr =>
    exact behind_keyword (Keyword.mem_table .criteria rfl) hm (fun _ => rfl) hr (by simp)
  | ordering hr =>
    exact behind_keyword (Keyword.mem_table .ordering rfl) hm (by decide) hr (by simp)
  | separator => exact behind_separator m _
  | finish => exact behind_nil m

theorem Reaches.begins (h : Reaches settings c w category) (hr : c.rest = w ++ s)
    (ht : Begins category t) : Begins category s := by
  obtain ⟨ps, c', p, c'', hcuts, rfl, hcut, hk⟩ := h
  obtain rfl := List.append_cancel_left (hr.symm.trans hcuts.rest_eq)
  rw [hcut.rest]
  exact ht.of_lexeme hcut.lexeme hk

/-! ## What is read across a position -/

theorem Begins.limit (h : Begins category s) (hc : category ≠ .separator) :
    s.takeWhile Char.isDigit = [] ∧ (s ≠ [] → longestKeyword? endsLimit s ≠ none) := by
  cases h with
  | criteria hr =>
    exact ⟨rfl, fun _ => longestKeyword?_endsLimit_ne_none (Keyword.mem_table .criteria rfl) rfl hr⟩
  | ordering hr =>
    exact ⟨rfl, fun _ => longestKeyword?_endsLimit_ne_none (Keyword.mem_table .ordering rfl) rfl hr⟩
  | separator => exact absurd rfl hc
  | finish => exact ⟨rfl, fun h => absurd rfl h⟩

theorem Lexeme.limitRun?_eq_none (h : Lexeme settings m b prev p r)
    (ha : m.accepts .first = true) (he : p.text ++ r = limitWord ++ s)
    (hd : s.takeWhile Char.isDigit = []) : limitRun? settings (limitWord ++ s) = none := by
  cases h with
  | finish => simp [limitWord] at he
  | leading | capitalized | preamble | itemSeparator => cases ha
  | limit _ hne ht =>
    rw [List.append_assoc, List.append_cancel_left_eq] at he
    rw [he, hd] at ht
    exact absurd ht.symm hne
  | keyword _ hk => exact he ▸ limitRun?_keyword (longestKeyword?_eq_some_iff.mp hk).1 _
  | pathStart _ _ _ hl => exact he ▸ hl ha
  | pathSeparator hm | pathPart hm => exact absurd ha (by simp [(Mode.accepts_eq_false hm).1])

theorem stuck_of_limit (ha : c.mode.accepts .first = true) (hr : c.rest = limitWord ++ s)
    (hd : s.takeWhile Char.isDigit = []) (hk : s ≠ [] → longestKeyword? endsLimit s ≠ none) :
    Stuck settings c := by
  intro p c' hcut
  have hnone := hcut.lexeme.limitRun?_eq_none ha (hcut.rest.symm.trans hr) hd
  obtain ⟨-, hne, hlong⟩ := limitRun?_eq_none_iff.mp hnone s rfl
  exact hk hne hlong

theorem Lexeme.text_eq_ordering (h : Lexeme settings m b prev p r)
    (ha : m.accepts .ordering = true) (hw : m.isWithinPath = true → prev ≠ some separator)
    (he : p.text ++ r = "OrderBy".toList ++ t)
    (ht : DerivedQuery.atBoundary t = true) : p.text = "OrderBy".toList := by
  have hlong : longestKeyword? m.accepts (p.text ++ r) = some ⟨"OrderBy".toList, .ordering⟩ :=
    he ▸ Keyword.longestKeyword?_append (Keyword.mem_table .ordering rfl) ha ht (by simp)
  cases h with
  | finish => simp at he
  | leading | capitalized | preamble => cases ha
  | limit => simp [limitWord] at he
  | keyword _ hk =>
    obtain rfl := Option.some.inj (hk.symm.trans hlong)
    rfl
  | pathStart _ _ _ _ hk => cases hk.symm.trans hlong
  | pathSeparator | itemSeparator => simp [separator] at he
  | pathPart hm => exact absurd rfl (hw hm)

theorem not_reaches_of_ordering (ha : c.mode.accepts .ordering = true)
    (hw : c.mode.isWithinPath = true → c.previous ≠ some separator)
    (hr : c.rest = orderWord ++ ("By".toList ++ t)) (ht : atBoundary t = true) :
    ¬ Reaches settings c orderWord category := by
  intro h
  obtain ⟨p, c', hcut, hp⟩ := h.exists_front (by decide)
  rw [hcut.lexeme.text_eq_ordering ha hw (hcut.rest.symm.trans hr) ht] at hp
  revert hp
  decide

theorem Mode.accepts_ordering_of_criteria (hm : .criteria ∈ m.expected)
    (hw : m.isWithinPath = true) : m.accepts .ordering = true := by
  revert hm hw
  cases m <;> decide

theorem segmentTail_order (hs : Behind within .criteria s) (hm : .criteria ∈ within.expected)
    (hw : within.isWithinPath = true)
    (ht : segmentTail within.accepts (u ++ orderWord ++ r) = u ++ orderWord) :
    segmentTail within.accepts (u ++ (orderWord ++ s)) = u := by
  rw [segmentTail_append_eq_iff] at ht ⊢
  have hr := atBoundary_of_not_segmentContinues ht.1
  refine ⟨?_, fun w ⟨v, hv⟩ hne => ?_⟩
  · obtain ⟨t, rfl, hb⟩ := hs.criteria rfl
    have ha := Mode.accepts_ordering_of_criteria hm hw
    exact segmentContinues_keyword (Keyword.mem_table .ordering rfl) ha hb (by simp)
  · have hcont := ht.2 (w ++ orderWord) ⟨v, by rw [← hv, List.append_assoc]⟩ (by simp [hne])
    have hsafe : Safe r s (w ++ orderWord) :=
      hs.safe hr (by simp [hne]) fun _ => by simpa using hne
    rw [← List.append_assoc]
    exact hsafe.segmentContinues (by simp [hne]) hcont

theorem Lexeme.before_order (h : Lexeme settings m b prev p r)
    (hk : p.kind.category = .property) (hn : m.next? p.kind = some within)
    (hs : Behind within .criteria s) (hm : .criteria ∈ within.expected) (hu : u ≠ [])
    (ht : p.text = u ++ orderWord) (hl : m.accepts .first = true → u ≠ limitWord) :
    Lexeme settings m b prev ⟨p.kind, u⟩ (orderWord ++ s) := by
  obtain ⟨e, es, rfl⟩ := List.exists_cons_of_ne_nil hu
  cases h with
  | @pathStart _ within' _ _ d ds _ ha hw hd hlim hkey htail =>
    obtain rfl : within' = within := Option.some.inj (hw.symm.trans hn)
    rw [List.cons_append, List.cons.injEq] at ht
    obtain ⟨rfl, rfl⟩ := ht
    have hr := atBoundary_of_not_segmentContinues (segmentTail_append_eq_iff.mp htail).1
    have hclear : Clear settings m (d :: es ++ orderWord ++ s) := by
      refine clear_of_safe hw ⟨hlim, hkey⟩ hs.atBoundary (List.cons_ne_nil d _) ?_ ?_ ?_
      · refine fun _ => hs.safe hr (List.cons_ne_nil d _) fun _ he => ?_
        exact List.cons_ne_nil d es (List.append_left_eq_self.mp he)
      · intro _ he
        have := congrArg List.length he
        simp [limitWord, orderWord] at this
      · intro hf w hne he
        refine hs.safe hr hne fun _ hw => hl hf ?_
        rw [hw] at he
        exact List.append_cancel_right he
    rw [List.append_assoc] at hclear
    exact .pathStart ha hw hd hclear.1 hclear.2
      (segmentTail_order hs hm (Mode.isWithinPath_of_pathMode? hw) htail)
  | @pathPart _ _ d ds _ hw hd htail =>
    obtain rfl := Option.some.inj ((Mode.next?_part hw).2.symm.trans hn)
    rw [List.cons_append, List.cons.injEq] at ht
    obtain ⟨rfl, rfl⟩ := ht
    exact .pathPart hw hd (segmentTail_order hs hm hw htail)
  | keyword _ hl =>
    rcases Kind.category_eq_property_iff.mp hk with hk | hk <;>
      exact absurd hk (kind_ne_of_longestKeyword? hl rfl)
  | _ => cases hk

/-- Behind a segment that ends with `Order`, no `By` is read. -/
theorem not_reaches_of_segment (hcut : Cut settings c₁ p c) (hk : p.kind.category = .property)
    (hw : c.mode.isWithinPath = true) (hs : Behind c.mode .criteria s)
    (hm : .criteria ∈ c.mode.expected) (hu : u ≠ []) (ht : p.text = u ++ orderWord) :
    ¬ Reaches settings (c₁.withRest (p.text ++ s)) p.text .criteria := by
  intro h
  obtain ⟨t, rfl, hb⟩ := hs.criteria rfl
  by_cases hl : c₁.mode.accepts .first = true ∧ u = limitWord
  · obtain ⟨q, c', hq, -⟩ := h.exists_front (by simp [ht, hu])
    obtain ⟨hf, rfl⟩ := hl
    have hrest : p.text ++ ("By".toList ++ t) = limitWord ++ ("OrderBy".toList ++ t) := by
      rw [ht, List.append_assoc]
      rfl
    obtain ⟨hd, hlong⟩ := (Begins.ordering hb).limit nofun
    exact stuck_of_limit (c := c₁.withRest (p.text ++ ("By".toList ++ t))) hf hrest hd hlong q c' hq
  · have hlex := hcut.lexeme.before_order hk hcut.next? hs hm hu ht fun hf he => hl ⟨hf, he⟩
    have hkind (k : Kind) (hne : k.category ≠ .property) : p.kind ≠ k := fun he => hne (he ▸ hk)
    have hprev := hlex.previous_ne_separator (hkind _ (by decide)) (hkind _ (by decide))
      (hkind _ (by decide))
    rw [ht, List.append_assoc] at h
    have hfront := (hlex.cut hcut.next?).cuts
    have hd : c.mode ≠ .done := by rintro hd; rw [hd] at hw; cases hw
    have htext : u ++ orderWord = textOf [⟨p.kind, u⟩] ++ orderWord := by simp
    rw [htext] at h
    have hback := Reaches.of_cuts hfront hd h
    refine not_reaches_of_ordering ?_ (fun _ => hprev) rfl hb hback
    exact Mode.accepts_ordering_of_criteria hm hw

end Begins

section Offered

variable {settings : Settings} {name s t : Text} {n : Nat} {cs : List Category} {c c' c₁ : Cursor}
  {p : Piece} {ps qs : List Piece} {category : Category} {d e : Diagnostic}

/-- **Where a token is reached** behind the last lexeme, no word is read across its end. -/
theorem Apart.of_reaches (h : Cuts settings (.ofName name) qs c₁) (hcut : Cut settings c₁ p c)
    (hs : Begins category s) (hc : category ∈ c.mode.expected)
    (hr : Reaches settings (.ofName (textOf (qs ++ [p]) ++ s)) (textOf (qs ++ [p])) category) :
    Apart c₁.mode p category := by
  have hd : c₁.mode ≠ .done := fun hd => stuck_of_done hd _ _ hcut
  have hbehind := hs.behind hc
  have hback (hk : p.kind = .pathStart ∨ p.kind = .pathPart) :
      Reaches settings (c₁.withRest (p.text ++ s)) p.text category := by
    rw [textOf_append, textOf_cons, textOf_nil, List.append_nil, List.append_assoc] at hr
    exact hr.of_cuts (h.exchange_before_segment hcut hk hbehind hc) hd
  refine ⟨?_, ?_, ?_⟩
  · rintro hk rfl u hu ht
    have hw := Mode.isWithinPath_of_property hk hcut.next?
    exact not_reaches_of_segment hcut hk hw hbehind hc hu ht
      (hback (Kind.category_eq_property_iff.mp hk))
  · rintro hk ha rfl ht
    have hback := hback (.inl hk)
    obtain ⟨t, rfl, hb⟩ := hbehind.criteria rfl
    have hw := (Mode.of_next?_pathStart (hk ▸ hcut.next?)).2
    rw [ht] at hback
    refine absurd hback (not_reaches_of_ordering ?_ (fun h => ?_) rfl hb)
    · exact ha
    · cases hw.symm.trans h
  · intro hk ha ht
    by_contra hne
    obtain ⟨hd, hlong⟩ := hs.limit hne
    obtain ⟨q, c', hq, -⟩ := (hback (.inl hk)).exists_front (by rw [ht]; decide)
    rw [ht] at hq
    exact stuck_of_limit (c := c₁.withRest (limitWord ++ s)) ha rfl hd hlong q c' hq

theorem Lexeme.separatedOrderItems {b : Bool} {prev : Option Char} {r : Text}
    (h : Lexeme settings .directed b prev p r) (hk : p.kind = .separator) :
    settings.separatedOrderItems = true := by
  cases h with
  | itemSeparator hs => exact hs
  | keyword _ hl => exact absurd hk (kind_ne_of_longestKeyword? hl rfl)
  | pathSeparator hm => cases hm
  | _ => cases hk

theorem move_eq_of_trace {ms : List Move} {v : Move} (h : Cuts settings (.ofName name) qs c₁)
    (hcut : Cut settings c₁ p c) (hs : Stuck settings c)
    (ht : Scan.trace settings name = ms ++ [v]) :
    v = ⟨⟨p.kind, p.text, byteLength (textOf qs)⟩, c₁.mode, c.mode⟩ := by
  obtain ⟨ms', htrace⟩ := trace_eq_concat h hcut hs
  exact List.singleton_inj.mp (List.append_inj' (ht.symm.trans htrace) rfl).2

theorem exists_cut_of_offered (h : Cuts settings (.ofName name) qs c₁) (hcut : Cut settings c₁ p c)
    (hd : c.mode ≠ .done) (he : nextPiece settings c = .error e) (hc : category ∈ c.mode.expected)
    (ht : Begins category t)
    (ho : Offered settings name (byteLength (textOf (qs ++ [p]))) category) :
    Apart c₁.mode p category ∧
      ∃ s q c', Cut settings (c.withRest s) q c' ∧ q.kind.category = category := by
  have hname : name = textOf (qs ++ [p]) ++ c.rest := (h.append hcut.cuts).rest_eq
  obtain ⟨s, hr⟩ := Offered.exists_reaches (hname ▸ ho) (by rintro rfl; cases ht)
  have hs : Begins category s := hr.begins rfl ht
  have hapart := Apart.of_reaches h hcut hs hc hr
  have hcuts := h.exchange_last hcut hd he (hs.behind hc) hc hapart
  have hback : Reaches settings (c.withRest s) [] category :=
    .of_cuts hcuts hd (by rwa [List.append_nil])
  exact ⟨hapart, s, hback.exists_cut⟩

/-- **What is overlisted cannot stand there.** -/
theorem not_offered_of_overlisted (h : Cuts settings (.ofName name) qs c₁)
    (hcut : Cut settings c₁ p c) (hd : c.mode ≠ .done) (he : nextPiece settings c = .error e)
    (hc : category ∈ c.mode.expected)
    (ho : Overlisted settings (Scan.trace settings name) category) :
    ¬ Offered settings name (byteLength (textOf (qs ++ [p]))) category := by
  intro hoffered
  obtain ⟨t, ht⟩ := ho.exists_begins
  obtain ⟨hapart, s, q, c', hq, hk⟩ := exists_cut_of_offered h hcut hd he hc ht hoffered
  have hstuck := stuck_of_error he
  generalize htrace : Scan.trace settings name = vs at ho
  cases ho with
  | bulk hv hb =>
    have hbulk := (isBulk_iff_of_trace (h.append hcut.cuts) hstuck).mpr ⟨_, htrace ▸ hv, hb⟩
    have hkind : q.kind = .ordering := Kind.eq_of_category hk (by simp)
    exact (hq.lexeme.of_keyword (Keyword.mem_table .ordering rfl) hkind).2.2.2 ⟨rfl, hbulk⟩
  | separator hsep hv =>
    obtain rfl := move_eq_of_trace h hcut hstuck htrace
    have hmode : c.mode = .directed := hv
    have hlex : Lexeme settings .directed c.isBulk c.previous q c'.rest := hmode ▸ hq.lexeme
    have hon := hlex.separatedOrderItems (Kind.eq_of_category hk (by simp))
    cases hsep.symm.trans hon
  | segment hp hu htext =>
    obtain rfl := move_eq_of_trace h hcut hstuck htrace
    exact hapart.segment hp rfl _ hu htext
  | path hp ha htext =>
    obtain rfl := move_eq_of_trace h hcut hstuck htrace
    exact hapart.path hp ha rfl htext
  | limit hp ha htext hcat =>
    obtain rfl := move_eq_of_trace h hcut hstuck htrace
    have hsep := hapart.limit hp ha htext
    rcases hcat with rfl | rfl | rfl <;> cases hsep

/-- **What a diagnostic lists can stand at its position** exactly if it is not overlisted: the name,
up to there, begins an accepted one with a token of the category. -/
theorem offered_iff_not_overlisted (h : tokenize settings name = .error d)
    (hd : d = .malformed n cs ∨ d = .unterminated n cs) (hc : category ∈ cs) :
    Offered settings name n category ↔
      ¬ Overlisted settings (Scan.trace settings name) category := by
  rcases offered_or_exists_cut h hd hc with ⟨ho, hcat⟩ | ⟨qs, p, c₁, c, e, hfront, hcut, hdone, he,
    rfl, hexp⟩
  · refine iff_of_true ho fun hover => ?_
    obtain ⟨s, hs⟩ := hover.exists_begins
    rcases hcat with rfl | rfl <;> cases hs
  · exact ⟨fun ho hover => not_offered_of_overlisted hfront hcut hdone he hexp hover ho,
      offered_of_expected hfront hcut hdone he hexp⟩

/-- Behind `updateAll` a name may end; an order is listed as well, which no such name has. -/
theorem offered_updateAllX : ∃ d, tokenize {} "updateAllX".toList = .error d ∧
    d = .malformed 9 [.ordering, .finish] ∧ Offered {} "updateAllX".toList 9 .finish ∧
      ¬ Offered {} "updateAllX".toList 9 .ordering := by
  have h : tokenize {} "updateAllX".toList = .error (.malformed 9 [.ordering, .finish]) := by
    decide +kernel
  have htrace : Scan.trace {} "updateAllX".toList =
      [⟨⟨.action .update, "update".toList, 0⟩, .initial, .bulk⟩] ++
        [⟨⟨.all, "All".toList, 6⟩, .bulk, .everything⟩] := by decide +kernel
  refine ⟨_, h, rfl, (offered_iff_not_overlisted h (.inl rfl) (by simp)).mpr ?_, fun ho =>
    (offered_iff_not_overlisted h (.inl rfl) (by simp)).mp ho ?_⟩
  · intro hover
    generalize hvs : Scan.trace {} "updateAllX".toList = vs at hover
    cases hover with
    | limit hk =>
      have hv := (List.append_inj' (hvs.symm.trans htrace) rfl).2
      rw [List.singleton_inj.mp hv] at hk
      cases hk
  · rw [htrace]
    exact .bulk (List.mem_cons_self ..) rfl

end Offered

end DerivedQuery
