import DerivedQuery.Proofs.Following

/-!
# What a diagnostic lists

A diagnostic lists the categories that its mode expects. Most of them can stand at its position: the
name, up to there, begins an accepted one with a token of the category. The table of modes does not
look at the action, at the settings or at the word that was cut last, and so lists a few categories
that cannot.

* `Offered`: a category that can stand at a position of a name;
* `Overlisted`: the categories that are listed and cannot;
* `trace_eq_moves`: the moves of a scan are those of its lexemes;
* `Fault.listed`, `offered_or_exists_cut`: what a diagnostic lists, and where it stands;
* **`offered_of_expected`**: what is listed can stand there, unless it is overlisted.
-/

namespace DerivedQuery

/-! ## What could have stood there -/

/-- A token of the category begins at the position; digits are those of a limit. -/
inductive Token.HoldsAt (t : Token) (n : Nat) : Category → Prop
  | start (hn : t.position = n) : HoldsAt t n t.kind.category
  | digit {k u d v} (hk : t.kind = .first k) (ht : t.text = u ++ d :: v) (hd : d.isDigit = true)
    (hn : t.position + byteLength u = n) : HoldsAt t n .digits

/-- A name that begins as this one up to the position is accepted, and has a token of the category
there. -/
def Offered (settings : Settings) (name : Text) (position : Nat) (category : Category) : Prop :=
  ∃ before after s ts, name = before ++ after ∧ byteLength before = position ∧
    tokenize settings (before ++ s) = .ok ts ∧ ∃ t ∈ ts, t.HoldsAt position category

/-- The categories that a diagnostic lists although no token of theirs can stand behind the
moves. -/
inductive Overlisted (settings : Settings) : List Move → Category → Prop
  /-- An action on many records takes no order. -/
  | bulk {ms v} (hv : v ∈ ms) (hk : Scan.isBulkAction v.token.kind = true) :
    Overlisted settings ms .ordering
  /-- The settings allow no separator between order items. -/
  | separator {ms v} (hs : settings.separatedOrderItems = false) (hv : v.target = .directed) :
    Overlisted settings (ms ++ [v]) .separator
  /-- The end of a segment makes `OrderBy` of `By`. -/
  | segment {ms v u} (hk : v.token.kind.category = .property) (hu : u ≠ [])
    (ht : v.token.text = u ++ orderWord) : Overlisted settings (ms ++ [v]) .criteria
  /-- So does a whole path where an order may be read. -/
  | path {ms v} (hk : v.token.kind = .pathStart) (hm : v.source.accepts .ordering = true)
    (ht : v.token.text = orderWord) : Overlisted settings (ms ++ [v]) .criteria
  /-- A path that is spelled as the word which opens a limit is one, unless it goes on. -/
  | limit {ms v c} (hk : v.token.kind = .pathStart) (hm : v.source.accepts .first = true)
    (ht : v.token.text = limitWord) (hc : c = .criteria ∨ c = .ordering ∨ c = .finish) :
    Overlisted settings (ms ++ [v]) c

/-! ## The moves of a scan -/

section Moves

variable {settings : Settings} {c c' c₀ c₁ : Cursor} {p : Piece} {ps qs : List Piece} {name : Text}

theorem moves_append (h : Cuts settings c ps c') (n : Nat) (qs : List Piece) :
    (moves c.mode n (ps ++ qs)).1 =
      (moves c.mode n ps).1 ++ (moves c'.mode (n + byteLength (textOf ps)) qs).1 := by
  induction h generalizing n with
  | nil => rfl
  | cons h _ ih =>
    simp only [List.cons_append, moves, h.next?, ih, textOf_cons, byteLength_append, Nat.add_assoc]

theorem exists_traceFor_eq_moves (settings : Settings) (fuel n : Nat) (hc : AtRun c)
    (hf : (if c.mode = .done then 0 else byteLength c.rest + 1) < fuel) :
    ∃ ps c', Cuts settings c ps c' ∧ Stuck settings c' ∧
      Scan.traceFor fuel (c.scan settings n []) = (moves c.mode n ps).1 := by
  induction fuel generalizing c n with
  | zero => omega
  | succ fuel ih =>
    by_cases hm : c.mode = .done
    · refine ⟨[], c, .nil c, stuck_of_done hm, ?_⟩
      rw [Scan.traceFor, if_pos (show (c.scan settings n []).mode = .done from hm)]
      rfl
    · rw [if_neg hm] at hf
      obtain ⟨ps, c', hcuts, hs, hup, hstep⟩ := step_scan settings hc hm n []
      rw [Scan.traceFor, if_neg (show (c.scan settings n []).mode ≠ .done from hm)]
      generalize (c.scan settings n []).step = step at hs hstep ⊢
      obtain ⟨s, f⟩ := step
      rcases hstep with ⟨rfl, hne, hc'⟩ | ⟨e, rfl, -, he⟩
      · have hle := hcuts.length_le
        have hpos := List.length_pos_iff.mpr hne
        have hf' : (if c'.mode = .done then 0 else byteLength c'.rest + 1) < fuel := by
          split at hle <;> split <;> omega
        obtain ⟨qs, c'', hcuts', hstuck, htrace⟩ := ih (n + byteLength (textOf ps)) hc' hf'
        refine ⟨ps ++ qs, c'', hcuts.append hcuts', hstuck, ?_⟩
        rw [moves_append hcuts, ← htrace, ← hup]
        obtain rfl : s = _ := hs
        rfl
      · exact ⟨ps, c', hcuts, stuck_of_error he, hup⟩

/-- **The moves of a scan** are those of its lexemes. -/
theorem trace_eq_moves (h : Cuts settings (.ofName name) ps c) (hs : Stuck settings c) :
    Scan.trace settings name = (moves .initial 0 ps).1 := by
  obtain ⟨qs, c', hcuts, hs', htrace⟩ := exists_traceFor_eq_moves settings (Scan.callLimit name) 0
    (c := .ofName name) (partPiece?_eq_none rfl) (by simp [Cursor.ofName, Scan.callLimit])
  rw [(h.unique hs hcuts hs').1]
  exact htrace

theorem trace_eq_concat (h : Cuts settings (.ofName name) qs c₁) (hcut : Cut settings c₁ p c)
    (hs : Stuck settings c) : ∃ ms, Scan.trace settings name =
      ms ++ [⟨⟨p.kind, p.text, byteLength (textOf qs)⟩, c₁.mode, c.mode⟩] := by
  refine ⟨(moves .initial 0 qs).1, (trace_eq_moves (h.append hcut.cuts) hs).trans ?_⟩
  refine (moves_append h 0 [p]).trans ?_
  simp [moves, hcut.next?, Cursor.ofName]

theorem isBulk_iff_of_trace (h : Cuts settings (.ofName name) ps c) (hs : Stuck settings c) :
    c.isBulk = true ↔ ∃ v ∈ Scan.trace settings name, Scan.isBulkAction v.token.kind = true := by
  rw [h.isBulk_iff 0, or_iff_right nofun, trace_eq_moves h hs, ← (moves_eq_place h 0).1]
  simp only [List.mem_map, exists_exists_and_eq_and, isBulkAction_eq_true_iff]
  rfl

end Moves

/-! ## What is listed can stand there -/

section Offered

variable {settings : Settings} {name t u : Text} {m : Mode} {n : Nat} {cs : List Category}
  {c c' c₁ : Cursor} {p : Piece} {ps qs : List Piece} {category : Category} {d e : Diagnostic}

theorem Fault.listed (h : Fault c e) (he : e = .malformed n cs ∨ e = .unterminated n cs)
    (hc : category ∈ cs) :
    n = 0 ∧ category ∈ c.mode.expected ∨
      n = byteLength limitWord ∧ category = .digits ∧ c.mode.accepts .first = true ∧
        c.rest = limitWord := by
  cases h with
  | malformed | unterminated =>
    rcases he with he | he <;> cases he
    exact .inl ⟨rfl, hc⟩
  | item _ hm =>
    rcases he with he | he <;> cases he
    have hsub : ∀ category ∈ [.property, .finish], category ∈ Mode.directed.expected := by decide
    exact .inl ⟨rfl, hm ▸ hsub category hc⟩
  | limit ha ht =>
    rcases he with he | he <;> cases he
    exact .inr ⟨rfl, List.mem_singleton.mp hc, ha, ht⟩
  | dangling | ordered | count => rcases he with he | he <;> cases he

theorem expected_of_splitAtAction_eq_error (h : splitAtAction t = .error e) :
    e.expected = Mode.initial.expected := by
  obtain ⟨u, r, -, -, -, -, ⟨-, rfl⟩ | ⟨-, rfl⟩⟩ := exists_of_splitAtAction_eq_error h <;> rfl

theorem offered_of_cut {before after s : Text} (hname : name = before ++ after)
    (h : Cuts settings (.ofName (before ++ s)) ps c) (hcut : Cut settings c p c')
    (hf : Finishes settings c')
    (hat : Token.HoldsAt ⟨p.kind, p.text, byteLength (textOf ps)⟩ (byteLength before) category) :
    Offered settings name (byteLength before) category := by
  obtain ⟨qs, c'', hcuts, hd⟩ := hf
  refine ⟨before, after, s, place 0 (ps ++ p :: qs), hname, rfl,
    tokenize_eq_ok_iff.mpr ⟨_, c'', h.append (.cons hcut hcuts), hd, rfl⟩, _, ?_, hat⟩
  rw [place_append, place_cons, Nat.zero_add]
  exact List.mem_append_right _ (List.mem_cons_self ..)

theorem offered_action (h : nextPiece settings (.ofName name) = .error e) :
    Offered settings name e.position .action := by
  obtain ⟨ps, r, prev, hr, hn, hcuts, -⟩ := exists_cuts_of_initial h
  have hlex : Lexeme settings .initial false prev ⟨.action .find, "Find".toList⟩ [] :=
    .capitalized (a := .find) rfl
  rw [← hn]
  exact offered_of_cut hr hcuts (hlex.cut rfl) (finishes_nil _ _ rfl) (.start rfl)

theorem offered_digits (h : Cuts settings (.ofName name) ps c) (hcut : Cut settings c₁ p c)
    (hd : c.mode ≠ .done) (he : nextPiece settings c = .error e)
    (ha : c.mode.accepts .first = true) (hrest : c.rest = limitWord) :
    Offered settings name (byteLength (textOf ps) + byteLength limitWord) .digits := by
  obtain ⟨hi, hp, hb⟩ := hcut.of_error hd he
  have hw : c.mode.isWithinPath = false := by revert ha; cases c.mode <;> decide
  have hx : Exchangeable c.mode c.previous c.rest (limitWord ++ ['1']) :=
    .of_detached hi hp hb (by decide +kernel) fun h => by rw [hw] at h; cases h
  have hlex : Lexeme settings c.mode c.isBulk c.previous ⟨.first 1, limitWord ++ ['1']⟩ [] :=
    .limit ha (by simp) rfl rfl
  have hcuts := (h.exchange hd hx).1
  have hname : name = textOf ps ++ limitWord ++ [] := by
    rw [List.append_nil, ← hrest]
    exact h.rest_eq
  rw [← List.append_assoc] at hcuts
  rw [← byteLength_append]
  exact offered_of_cut hname hcuts (hlex.cut (if_pos ha)) (finishes_nil _ _ rfl)
    (.digit rfl rfl rfl (byteLength_append _ _).symm)

theorem Mode.expected_of_pathMode? {within : Mode} (ha : m.accepts .first = true)
    (hw : m.pathMode? = some within) :
    within.expected = [.separator, .criteria, .ordering, .finish] := by
  revert ha hw
  cases m <;> intro ha hw <;> cases ha <;> cases hw <;> rfl

/-- What a mode expects can stand there, unless it is overlisted. -/
theorem offered_of_expected (h : Cuts settings (.ofName name) qs c₁) (hcut : Cut settings c₁ p c)
    (hd : c.mode ≠ .done) (he : nextPiece settings c = .error e) (hc : category ∈ c.mode.expected)
    (ho : ¬ Overlisted settings (Scan.trace settings name) category) :
    Offered settings name (byteLength (textOf (qs ++ [p]))) category := by
  obtain ⟨hi, hprev, hb⟩ := hcut.of_error hd he
  have hall := h.append hcut.cuts
  have hstuck := stuck_of_error he
  obtain ⟨ms, htrace⟩ := trace_eq_concat h hcut hstuck
  have hbulk : category = .ordering → c.isBulk = false := by
    rintro rfl
    by_contra hb
    obtain ⟨v, hv, hk⟩ := (isBulk_iff_of_trace hall hstuck).mp (by simpa using hb)
    exact ho (.bulk hv hk)
  have hsep : category = .separator → c.mode = .directed → settings.separatedOrderItems = true := by
    rintro rfl hm
    by_contra hs
    exact ho (htrace ▸ .separator (by simpa using hs) hm)
  obtain ⟨s, ⟨q, c', hq, hk, hf⟩, hbehind⟩ := exists_opens hi hc hprev hbulk hsep
  have hapart : Apart c₁.mode p category := by
    refine ⟨fun hk hcr u hu ht => ?_, fun hk ha hcr ht => ?_, fun hk ha ht => ?_⟩
    · rw [hcr] at ho
      exact ho (htrace ▸ .segment hk hu ht)
    · rw [hcr] at ho
      exact ho (htrace ▸ .path hk ha ht)
    · have hn := hcut.next?
      rw [hk] at hn
      rw [Mode.expected_of_pathMode? ha hn] at hc
      by_contra hne
      exact ho (htrace ▸ .limit hk ha ht (by simpa [hne] using hc))
  have hcuts := h.exchange_last hcut hd he hbehind hc hapart
  have hname : name = textOf (qs ++ [p]) ++ c.rest := hall.rest_eq
  refine offered_of_cut hname hcuts hq hf ?_
  rw [← hk]
  exact .start rfl

/-- What is listed can stand there as an action or as the digits of a limit, or it is expected
behind the last lexeme. -/
theorem offered_or_exists_cut (h : tokenize settings name = .error d)
    (hd : d = .malformed n cs ∨ d = .unterminated n cs) (hc : category ∈ cs) :
    Offered settings name n category ∧ (category = .action ∨ category = .digits) ∨
      ∃ qs p c₁ c e, Cuts settings (.ofName name) qs c₁ ∧ Cut settings c₁ p c ∧ c.mode ≠ .done ∧
        nextPiece settings c = .error e ∧ n = byteLength (textOf (qs ++ [p])) ∧
          category ∈ c.mode.expected := by
  obtain ⟨ps, c, e, hcuts, hdone, he, rfl⟩ := tokenize_eq_error_iff.mp h
  obtain ⟨k, rfl, hk⟩ : ∃ k, n = byteLength (textOf ps) + k ∧
      (e = .malformed k cs ∨ e = .unterminated k cs) := by
    cases e <;> rcases hd with hd | hd <;> cases hd
    · exact ⟨_, rfl, .inl rfl⟩
    · exact ⟨_, rfl, .inr rfl⟩
  rcases hcuts.eq_nil_or_exists_last with ⟨rfl, rfl⟩ | ⟨qs, p, c₁, rfl, hfront, hcut⟩
  · have hexp := expected_of_splitAtAction_eq_error (actionRun_eq_error he).2
    have hpos : e.position = k ∧ e.expected = cs := by
      rcases hk with rfl | rfl <;> exact ⟨rfl, rfl⟩
    rw [hpos.2] at hexp
    rw [hexp] at hc
    obtain rfl := List.mem_singleton.mp hc
    exact .inl ⟨by simpa [hpos.1] using offered_action he, .inl rfl⟩
  · have hi := (hcut.of_error hdone he).1
    rcases (fault_of_nextPiece hi hdone he).listed hk hc with ⟨rfl, hc⟩ | ⟨rfl, rfl, ha, hrest⟩
    · exact .inr ⟨qs, p, c₁, c, e, hfront, hcut, hdone, he, rfl, hc⟩
    · exact .inl ⟨offered_digits hcuts hcut hdone he ha hrest, .inr rfl⟩

end Offered

end DerivedQuery
