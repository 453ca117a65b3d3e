import DerivedQuery.Proofs.Exchange

/-!
# Rejected names can be completed

The position of a diagnostic is where a name goes wrong: up to there it is the beginning of a name
that is accepted.

* `Finishes`: the end of the name is reached from a cursor;
* `Mode.completion`, `finishes_completion`: a text that leads from a mode to the end;
* `Fault`, **`fault_of_nextPiece`**: what stops a scan behind the action;
* **`exists_completion_of_parse_error`**: a rejected name, up to the position of its diagnostic, can
  be completed.
-/

namespace DerivedQuery

/-! ## Reaching the end -/

/-- The end of the name is reached. -/
def Finishes (settings : Settings) (c : Cursor) : Prop :=
  ∃ ps c', Cuts settings c ps c' ∧ c'.mode = .done

section Finish

variable {settings : Settings} {m m' within : Mode} {b : Bool} {prev : Option Char} {p : Piece}
  {r s : Text} {c c' : Cursor} {ps : List Piece}

theorem Finishes.of_cuts (h : Cuts settings c ps c') (hf : Finishes settings c') :
    Finishes settings c := by
  obtain ⟨qs, c'', h', hd⟩ := hf
  exact ⟨ps ++ qs, c'', h.append h', hd⟩

theorem Lexeme.finishes (h : Lexeme settings m b prev p r) (hn : m.next? p.kind = some m')
    (hf : Finishes settings ⟨m', b || Scan.isBulkAction p.kind, p.text.getLast?.or prev, r⟩) :
    Finishes settings ⟨m, b, prev, p.text ++ r⟩ :=
  .of_cuts (h.cut hn).cuts hf

theorem exists_parse_iff {name : Text} :
    (∃ q, parse settings name = .ok q) ↔ Finishes settings (.ofName name) := by
  constructor
  · rintro ⟨q, h⟩
    obtain ⟨c, d, hreads, hm, -⟩ := parse_eq_ok_iff.mp h
    obtain ⟨ps, hcuts, -⟩ := hreads.exists_cuts
    exact ⟨ps, c, hcuts, hm⟩
  · rintro ⟨ps, c, hcuts, hm⟩
    have ht := tokenize_eq_ok_iff.mpr ⟨ps, c, hcuts, hm, rfl⟩
    cases hp : parse settings name with
    | ok q => exact ⟨q, rfl⟩
    | error e => cases ht.symm.trans (parse_eq_error_iff.mp hp)

theorem finishes_nil (b : Bool) (prev : Option Char) (h : m.accepts .finish = true) :
    Finishes settings ⟨m, b, prev, []⟩ :=
  (Lexeme.finish h).finishes (if_pos h) ⟨[], _, .nil _, rfl⟩

/-! ## Completions -/

/-- A text that completes a name which has been cut up to the mode. -/
def Mode.completion : Mode → Text
  | bulk => "All".toList
  | aggregate | criterionStart | orderStart => ['X']
  | projected | criterion | ordered => [separator, 'X']
  | negated | caselessNegated => "Like".toList
  | _ => []

theorem longestKeyword?_X (accepts : Category → Bool) : longestKeyword? accepts ['X'] = none := by
  have h : ∀ k ∈ Keyword.table, ¬ Leads k.text ['X'] := by decide +kernel
  exact longestKeyword?_eq_none_iff.mpr fun k hk _ => h k hk

theorem finishes_path (b : Bool) (prev : Option Char) (ha : m.accepts .property = true)
    (hf : m.accepts .first = false) (hw : m.pathMode? = some within) :
    Finishes settings ⟨m, b, prev, ['X']⟩ := by
  have hlex : Lexeme settings m b prev ⟨.pathStart, ['X']⟩ [] :=
    .pathStart ha hw rfl (fun h => by simp [hf] at h) (longestKeyword?_X _) rfl
  refine hlex.finishes hw (finishes_nil _ _ ?_)
  revert hw
  cases m <;> simp only [Mode.pathMode?, Mode.next?, Option.some.injEq, reduceCtorEq,
    false_implies] <;> rintro rfl <;> decide

theorem finishes_part (b : Bool) (hm : m.isWithinPath = true) (hp : prev ≠ some separator) :
    Finishes settings ⟨m, b, prev, [separator, 'X']⟩ := by
  have hsep : Lexeme settings m b prev ⟨.separator, [separator]⟩ ['X'] :=
    .pathSeparator hm hp (by decide)
  have hpart : Lexeme settings m (b || false) (some separator) ⟨.pathPart, ['X']⟩ [] :=
    .pathPart hm (by decide) rfl
  refine hsep.finishes (Mode.next?_part hm).1 (hpart.finishes (Mode.next?_part hm).2 ?_)
  exact finishes_nil _ _ (by revert hm; cases m <;> decide)

theorem finishes_keyword (b : Bool) (prev : Option Char) {k : Keyword}
    (hk : longestKeyword? m.accepts (k.text ++ []) = some k) (hp : m.isWithinPath = false)
    (ho : k.kind ≠ .ordering) (hn : m.next? k.kind = some m') (hf : m'.accepts .finish = true) :
    Finishes settings ⟨m, b, prev, k.text ++ []⟩ := by
  have hlex : Lexeme settings m b prev ⟨k.kind, k.text⟩ [] :=
    .keyword (fun h => by simp [hp] at h) hk fun h => ho h.1
  exact hlex.finishes hn (finishes_nil _ _ hf)

/-- **Every mode has a completion.** -/
theorem finishes_completion (b : Bool) (hi : m ≠ .initial) (hd : m ≠ .done)
    (hp : prev ≠ some separator) : Finishes settings ⟨m, b, prev, m.completion⟩ := by
  cases m with
  | initial => exact absurd rfl hi
  | done => exact absurd rfl hd
  | bulk => exact finishes_keyword (k := ⟨"All".toList, .all⟩) b prev rfl rfl nofun rfl rfl
  | negated | caselessNegated =>
    exact finishes_keyword (k := .ofOperator .like) b prev rfl rfl nofun rfl rfl
  | aggregate | criterionStart | orderStart => exact finishes_path b prev rfl rfl rfl
  | projected | criterion | ordered => exact finishes_part b rfl hp
  | narrow | wide | limited | distinct | everything | caseless | negatedCaseless | compared
  | directed => exact finishes_nil b prev rfl

/-- A text that completes no word may stand behind what has been cut, if it stops the segment
before it. -/
theorem Exchangeable.of_detached (hi : m ≠ .initial) (hp : prev ≠ some separator)
    (hr : m ≠ .limited → DerivedQuery.atBoundary r = true) (hs : Detached s)
    (hw : m.isWithinPath = true → segmentContinues m.accepts s = false ∧ s ≠ [] ∧
      longestKeyword? endsLimit s = none) : Exchangeable m prev r s where
  subsumes hm := hs.subsumes (hr hm)
  atBoundary _ := hs.1
  digits _ := takeWhile_isDigit_of_atBoundary hs.1
  action hm := absurd hm hi
  letter h := absurd h hp
  segment hm _ _ := (hw hm).1
  limit hm _ _ := (hw hm).2

theorem exchangeable_completion (hi : m ≠ .initial) (hp : prev ≠ some separator)
    (hr : m ≠ .limited → atBoundary r = true) : Exchangeable m prev r m.completion := by
  refine .of_detached hi hp hr ?_ ?_
  · cases m <;> decide +kernel
  · cases m <;> decide +kernel

/-! ## Faults behind the action -/

/-- The faults that stop a scan behind the action. They stand where nothing is cut, or behind the
word that opens a limit. -/
inductive Fault (c : Cursor) : Diagnostic → Prop
  | malformed (ht : c.rest ≠ []) : Fault c (.malformed 0 c.mode.expected)
  /-- The settings allow no separator between order items. -/
  | item (ht : c.rest ≠ []) (hm : c.mode = .directed) : Fault c (.malformed 0 [.property, .finish])
  | dangling (ht : c.previous ≠ some separator → ∃ t, c.rest = separator :: t) :
    Fault c (.danglingSeparator 0)
  | ordered (hb : c.isBulk = true) (ht : Leads "OrderBy".toList c.rest) : Fault c (.orderedBulk 0)
  | unterminated (ht : c.rest = []) : Fault c (.unterminated 0 c.mode.expected)
  | limit (ha : c.mode.accepts .first = true) (ht : c.rest = limitWord) :
    Fault c (.unterminated (byteLength limitWord) [.digits])
  | count {after} (ha : c.mode.accepts .first = true) (ht : c.rest = limitWord ++ after) :
    Fault c (.invalidCount (byteLength limitWord) (after.takeWhile Char.isDigit))

section Fault

variable {t : Text} {e : Diagnostic}

theorem Fault.position (h : Fault c e) : e.position = 0 ∨
    c.mode.accepts .first = true ∧ e.position = byteLength limitWord ∧
      ∃ after, c.rest = limitWord ++ after := by
  cases h with
  | malformed | item | dangling | ordered | unterminated => exact .inl rfl
  | limit ha ht => exact .inr ⟨ha, rfl, [], by rw [ht, List.append_nil]⟩
  | count ha ht => exact .inr ⟨ha, rfl, _, ht⟩

theorem Fault.eq_byteLength {n : Nat} {cs : List Category} (h : Fault c (.unterminated n cs)) :
    n = byteLength c.rest := by
  cases h with
  | unterminated ht => rw [ht, byteLength_nil]
  | limit _ ht => rw [ht]

theorem fault_of_limitRun? {run : Run} (ha : m.accepts .first = true)
    (hr : limitRun? settings t = some run) (he : run.front = .error e) :
    Fault ⟨m, b, prev, t⟩ e := by
  rw [limitRun?] at hr
  split at hr
  · cases hr
  · next after h =>
    have ht := (List.isPrefixOf?_eq_some_iff_append_eq.mp h).symm
    dsimp only at hr
    split_ifs at hr with hd hempty hk
    · split at hr <;> cases hr <;> cases he
      exact .count ha ht
    · cases hr
      cases he
      exact .limit ha (by rw [ht, hempty, List.append_nil])
    · cases hr
      cases he
      have hnone : after.takeWhile Char.isDigit = [] := not_not.mp hd
      rw [← hnone]
      exact .count ha ht

theorem fault_of_plainRun (ht : t ≠ []) (he : (plainRun settings m prev t).front = .error e) :
    Fault ⟨m, b, prev, t⟩ e := by
  cases t with
  | nil => exact absurd rfl ht
  | cons d ds =>
    rw [plainRun] at he
    split at he
    · cases hw : m.pathMode? with
      | none =>
        simp only [pathRun, hw] at he
        cases he
        exact .malformed ht
      | some within =>
        simp only [pathRun, hw] at he
        cases he
    · split at he
      · next hs =>
        have hdangling : Fault ⟨m, b, prev, d :: ds⟩ (.danglingSeparator 0) :=
          .dangling fun _ => ⟨ds, congrArg (· :: ds) hs⟩
        split at he
        · next hm =>
          unfold separatorRun at he
          split at he
          · cases he
            exact .item ht hm
          · split at he
            · split at he <;> cases he
              exact hdangling
            · cases he
              exact hdangling
        · split at he <;> cases he
          · exact hdangling
          · exact .malformed ht
      · cases he
        exact .malformed ht

theorem fault_of_partPiece? (h : partPiece? m prev t = some (.error e)) :
    Fault ⟨m, b, prev, t⟩ e := by
  cases t with
  | nil => cases h
  | cons d ds =>
    rw [partPiece?.eq_def] at h
    dsimp only at h
    split_ifs at h with hm hp ha hs
    · cases h
    · cases h
      exact .dangling fun hne => absurd hp hne
    · have hdangling : Fault ⟨m, b, prev, d :: ds⟩ (.danglingSeparator 0) :=
        .dangling fun _ => ⟨ds, congrArg (· :: ds) hs⟩
      split at h
      · split_ifs at h <;> cases h
        exact hdangling
      · cases h
        exact hdangling

/-- **What stops a scan** behind the action. -/
theorem fault_of_nextPiece (hi : c.mode ≠ .initial) (hd : c.mode ≠ .done)
    (he : nextPiece settings c = .error e) : Fault c e := by
  obtain ⟨m, b, prev, t⟩ := c
  dsimp only at hi hd
  cases hp : partPiece? m prev t with
  | some result =>
    simp only [nextPiece, hp] at he
    exact fault_of_partPiece? (he ▸ hp)
  | none =>
    rw [nextPiece_eq_front hp, nextRun, if_neg hi, if_neg hd] at he
    split at he
    · next ht =>
      split at he
      · cases he
      · cases he
        exact .unterminated ht
    · next ht =>
      rw [clauseRun] at he
      split at he
      · next run hr =>
        split at hr
        · next ha => exact fault_of_limitRun? ha hr he
        · cases hr
      · split at he
        · next k hk =>
          obtain ⟨hmem, -, hlead, -⟩ := longestKeyword?_eq_some_iff.mp hk
          split at he
          · next ho =>
            cases he
            obtain rfl := Keyword.kind_injective hmem (Keyword.mem_table .ordering rfl) ho.1
            exact .ordered ho.2 hlead
          · cases he
        · exact fault_of_plainRun ht he

end Fault

/-! ## The last lexeme before a fault -/

theorem exists_nextPiece_of_separator (settings : Settings)
    (hm : m.isWithinPath = true ∨ m = .orderStart) :
    ∃ (k : Kind) (within : Mode), ∀ (b : Bool) {d : Char} {ds : Text}, d.isAlpha = true →
      nextPiece settings ⟨m, b, some separator, d :: ds⟩ =
        .ok ⟨k, d :: segmentTail within.accepts ds⟩ := by
  have key {b : Bool} {k : Kind} {within : Mode} {d : Char} {ds : Text}
      (h : ∀ r,
        segmentTail within.accepts (segmentTail within.accepts ds ++ r) =
            segmentTail within.accepts ds →
          Lexeme settings m b (some separator) ⟨k, d :: segmentTail within.accepts ds⟩ r) :
      nextPiece settings ⟨m, b, some separator, d :: ds⟩ =
        .ok ⟨k, d :: segmentTail within.accepts ds⟩ := by
    obtain ⟨r, hr⟩ := exists_eq_segmentTail_append within.accepts ds
    refine (congrArg _ ?_).trans (h r (by rw [← hr])).nextPiece_eq
    rw [List.cons_append, ← hr]
  rcases hm with hm | rfl
  · exact ⟨.pathPart, m, fun b _ _ hd => key fun r ht => .pathPart hm hd ht⟩
  · have hk : ∀ k ∈ Keyword.table, Mode.orderStart.accepts k.kind.category = false := by decide
    refine ⟨.pathStart, .ordered, fun b _ _ hd => key fun r ht =>
      .pathStart rfl rfl (by simp [startsPath, hd]) nofun ?_ ht⟩
    exact longestKeyword?_eq_none_iff.mpr fun k hmem ha => by simp [hk k hmem] at ha

theorem Cut.of_separator (h : Cut settings c p c') (hk : p.kind = .separator) :
    p.text = [separator] ∧ (∃ d ds, c'.rest = d :: ds ∧ d.isAlpha = true) ∧
      (c'.mode.isWithinPath = true ∨ c'.mode = .orderStart) := by
  obtain ⟨ht, hletter, hm⟩ := h.lexeme.of_separator hk
  refine ⟨ht, hletter, ?_⟩
  have hn := h.next?
  rw [hk] at hn
  rcases hm with ⟨hm, -⟩ | hm
  · rw [← Option.some.inj ((Mode.next?_part hm).1.symm.trans hn)]
    exact .inl hm
  · rw [hm] at hn
    exact .inr (Option.some.inj hn).symm

/-- **Where a scan stops after a lexeme**, a camel-case word has ended, digits of a limit apart. -/
theorem Cut.of_error {e : Diagnostic} (h : Cut settings c p c') (hd : c'.mode ≠ .done)
    (he : nextPiece settings c' = .error e) :
    c'.mode ≠ .initial ∧ c'.previous ≠ some separator ∧
      (c'.mode ≠ .limited → DerivedQuery.atBoundary c'.rest = true) := by
  have hlex := h.lexeme
  have hn := h.next?
  have hf : p.kind ≠ .finish := fun hk => hd (Mode.eq_done_of_finish (hk ▸ hn))
  by_cases hp : p.kind = .preamble
  · obtain ⟨a, hm, hs⟩ := hlex.of_preamble hp
    rw [hp, hm] at hn
    obtain ⟨m, b, prev, t⟩ := c'
    obtain rfl : Mode.initial = m := Option.some.inj hn
    obtain ⟨r, rfl, hb⟩ :=
      capitalizedAction?_eq_some_iff.mp (splitAtAction_append_eq_ok_iff.mp hs).1
    cases he.symm.trans (Lexeme.capitalized hb).nextPiece_eq
  by_cases hs : p.kind = .separator
  · obtain ⟨ht, ⟨d, ds, hr, ha⟩, hm⟩ := h.of_separator hs
    obtain ⟨k, within, hnext⟩ := exists_nextPiece_of_separator settings hm
    have hprev := h.previous
    obtain ⟨m, b, prev, t⟩ := c'
    obtain rfl : t = d :: ds := hr
    obtain rfl : prev = some separator := hprev.trans (by rw [ht]; rfl)
    cases he.symm.trans (hnext b ha)
  · rw [h.previous]
    refine ⟨fun hi => hp ((Mode.of_next? hn).1 hi), hlex.previous_ne_separator hs hp hf,
      fun hl => ?_⟩
    exact hlex.atBoundary hs hp fun hk => hl ((Mode.of_next? hn).2.mpr hk)

theorem Cuts.eq_nil_or_exists_cut (h : Cuts settings c ps c') :
    ps = [] ∧ c = c' ∨ ∃ c₁ p, Cut settings c₁ p c' := by
  induction h with
  | nil => exact .inl ⟨rfl, rfl⟩
  | cons h _ ih =>
    rcases ih with ⟨-, rfl⟩ | h'
    · exact .inr ⟨_, _, h⟩
    · exact .inr h'

end Finish

/-! ## Rejected names -/

section Rejected

variable {settings : Settings} {name t s : Text} {c : Cursor} {ps : List Piece} {d e : Diagnostic}

/-- Where no action is found, none begins before the fault, and a camel-case word may end there. -/
theorem exists_of_splitAtAction_eq_error (h : splitAtAction t = .error e) :
    ∃ u r, t = u ++ r ∧ atBoundary r = true ∧ (∀ c ∈ u, isNameChar c = true) ∧
      (∀ w, w <:+ u → w ≠ [] → capitalizedAction? (w ++ r) = none) ∧
      (r = [] ∧ e = .unterminated (byteLength u) Mode.initial.expected ∨
        r ≠ [] ∧ e = .malformed (byteLength u) Mode.initial.expected) := by
  induction t generalizing e with
  | nil =>
    cases h
    exact ⟨[], [], rfl, rfl, by simp, by simp, .inl ⟨rfl, rfl⟩⟩
  | cons c cs ih =>
    rw [splitAtAction] at h
    split at h
    · next hc =>
      split at h
      · cases h
      · next hn =>
        split at h
        · cases h
        · next e' he =>
          cases h
          obtain ⟨u, r, rfl, hb, hu, hw, hfault⟩ := ih he
          refine ⟨c :: u, r, rfl, hb, List.forall_mem_cons.mpr ⟨hc, hu⟩,
            forall_suffix_cons_iff.mpr ⟨hn, hw⟩, ?_⟩
          rcases hfault with ⟨hr, rfl⟩ | ⟨hr, rfl⟩
          · exact .inl ⟨hr, rfl⟩
          · exact .inr ⟨hr, rfl⟩
    · next hc =>
      cases h
      refine ⟨[], c :: cs, rfl, ?_, by simp, by simp, .inr ⟨List.cons_ne_nil c cs, rfl⟩⟩
      simp only [isNameChar, Char.isAlphanum, Char.isAlpha, Bool.or_eq_true, not_or] at hc
      simp [atBoundary, hc.1.1.2, hc.1.2]

theorem finishes_find (prev : Option Char) :
    Finishes settings ⟨.initial, false, prev, "Find".toList⟩ :=
  (Lexeme.capitalized (a := .find) (r := []) rfl).finishes rfl (finishes_nil _ _ rfl)

theorem actionRun_eq_error (h : nextPiece settings (.ofName name) = .error e) :
    leadingAction? name = none ∧ splitAtAction name = .error e := by
  rw [Cursor.ofName, nextPiece_eq_front (partPiece?_eq_none rfl), nextRun] at h
  split at h
  · next hn =>
    subst hn
    rw [if_neg (by decide)] at h
    cases h
    exact ⟨rfl, rfl⟩
  · rw [if_pos rfl, actionRun] at h
    split at h
    · cases h
    · next hl =>
      split at h
      · cases h
      · cases h
      · next hs =>
        cases h
        exact ⟨hl, hs⟩

/-- **A name without an action** is passed up to the fault, if an action stands there. -/
theorem exists_cuts_of_initial (h : nextPiece settings (.ofName name) = .error e) :
    ∃ ps r prev, name = textOf ps ++ r ∧ byteLength (textOf ps) = e.position ∧
      Cuts settings (.ofName (textOf ps ++ "Find".toList)) ps
        ⟨.initial, false, prev, "Find".toList⟩ ∧
      ∀ n cs, e = .unterminated n cs → n = byteLength name := by
  obtain ⟨hl, hs⟩ : leadingAction? name = none ∧ splitAtAction name = .error e :=
    actionRun_eq_error h
  obtain ⟨u, r, rfl, hb, hu, hw, hfault⟩ := exists_of_splitAtAction_eq_error hs
  have hp : e.position = byteLength u := by rcases hfault with ⟨-, rfl⟩ | ⟨-, rfl⟩ <;> rfl
  have hun : ∀ n cs, e = .unterminated n cs → n = byteLength (u ++ r) := by
    rintro n cs rfl
    rcases hfault with ⟨rfl, he⟩ | ⟨-, he⟩ <;> cases he
    rw [List.append_nil]
  rcases eq_or_ne u [] with rfl | hne
  · exact ⟨[], r, none, rfl, hp.symm, .nil _, hun⟩
  · have hsub : Subsumes r "Find".toList := Detached.subsumes (by decide +kernel) hb
    have hsplit : splitAtAction (u ++ "Find".toList) = .ok (u, .find) :=
      splitAtAction_append_eq_ok_iff.mpr ⟨by decide +kernel, hu, fun w hsuf hw' =>
        hsub.capitalizedAction?_eq_none hw' (hw w hsuf hw')⟩
    have hlex : Lexeme settings .initial false none ⟨.preamble, u⟩ "Find".toList :=
      .preamble hne (hsub.leadingAction?_eq_none hne hl) hsplit
    have hcuts := (hlex.cut rfl).cuts
    refine ⟨[⟨.preamble, u⟩], r, u.getLast?.or none, ?_, ?_, ?_, hun⟩ <;>
      rw [textOf_cons, textOf_nil, List.append_nil]
    · exact hp.symm
    · exact hcuts

theorem finishes_limit (b : Bool) (prev : Option Char) {m : Mode} (ha : m.accepts .first = true) :
    Finishes settings ⟨m, b, prev, limitWord ++ ['1']⟩ := by
  have hlex : Lexeme settings m b prev ⟨.first 1, limitWord ++ ['1']⟩ [] :=
    .limit ha (by simp) rfl rfl
  exact hlex.finishes (if_pos ha) (finishes_nil _ _ rfl)

/-- A text with which the scan goes on from its last lexeme to the end completes the name. -/
theorem finishes_of_exchange (h : Cuts settings (.ofName name) ps c) (hd : c.mode ≠ .done)
    (hx : Exchangeable c.mode c.previous c.rest s)
    (hf : Finishes settings (c.withRest s)) : Finishes settings (.ofName (textOf ps ++ s)) :=
  .of_cuts (h.exchange hd hx).1 hf

/-- **Where a name is cut no further**, it can be completed. -/
theorem exists_completion_of_cuts (h : Cuts settings (.ofName name) ps c) (hd : c.mode ≠ .done)
    (he : nextPiece settings c = .error e) :
    ∃ u r s, name = u ++ r ∧ byteLength u = byteLength (textOf ps) + e.position ∧
      Finishes settings (.ofName (u ++ s)) ∧
      ∀ n cs, e = .unterminated n cs → byteLength (textOf ps) + n = byteLength name := by
  have hname : name = textOf ps ++ c.rest := h.rest_eq
  rcases h.eq_nil_or_exists_cut with ⟨rfl, rfl⟩ | ⟨c₁, p, hcut⟩
  · obtain ⟨qs, r, prev, hr, hu, hcuts, hun⟩ := exists_cuts_of_initial he
    exact ⟨textOf qs, r, _, hr, by simpa using hu, .of_cuts hcuts (finishes_find prev),
      by simpa using hun⟩
  · obtain ⟨hi, hp, hb⟩ := hcut.of_error hd he
    have hfault := fault_of_nextPiece hi hd he
    have hend : ∀ n cs, e = .unterminated n cs → byteLength (textOf ps) + n = byteLength name := by
      rintro n cs rfl
      rw [hfault.eq_byteLength, hname, byteLength_append]
    rcases hfault.position with hpos | ⟨ha, hpos, after, hafter⟩
    · refine ⟨textOf ps, c.rest, c.mode.completion, hname, by rw [hpos, Nat.add_zero], ?_, hend⟩
      exact finishes_of_exchange h hd (exchangeable_completion hi hp hb)
        (finishes_completion c.isBulk hi hd hp)
    · refine ⟨textOf ps ++ limitWord, after, ['1'], ?_, ?_, ?_, hend⟩
      · rw [hname, hafter, List.append_assoc]
      · rw [hpos, byteLength_append]
      · have hw : c.mode.isWithinPath = false := by revert ha; cases c.mode <;> decide
        rw [List.append_assoc]
        refine finishes_of_exchange h hd (.of_detached hi hp hb (by decide +kernel) ?_)
          (finishes_limit c.isBulk c.previous ha)
        intro hw'
        rw [hw] at hw'
        cases hw'

/-- **A rejected name can be completed** from where its diagnostic stands. The position lies in the
name, at the start of a character, and what comes before it begins a name that has a query. A name
that ends too early is the beginning of such a name as a whole. -/
theorem exists_completion_of_parse_error (h : parse settings name = .error d) :
    d.position ≤ byteLength name ∧
      (∃ before after, name = before ++ after ∧ byteLength before = d.position ∧
        ∃ s q, parse settings (before ++ s) = .ok q) ∧
      ∀ n expected, d = .unterminated n expected →
        n = byteLength name ∧ ∃ s q, parse settings (name ++ s) = .ok q := by
  obtain ⟨ps, c, e, hcuts, hd, he, rfl⟩ := tokenize_eq_error_iff.mp (parse_eq_error_iff.mp h)
  obtain ⟨u, r, s, rfl, hu, hf, hun⟩ := exists_completion_of_cuts hcuts hd he
  have hq : ∃ q, parse settings (u ++ s) = .ok q := exists_parse_iff.mpr hf
  refine ⟨?_, ⟨u, r, rfl, ?_, s, hq⟩, fun n expected hn => ?_⟩
  · rw [Diagnostic.position_shift, ← hu, byteLength_append]
    omega
  · rw [Diagnostic.position_shift, hu]
  · cases e with
    | unterminated m cs =>
      cases hn
      have hend := hun m _ rfl
      rw [Diagnostic.position] at hu
      rw [byteLength_append] at hend
      have hr : r = [] := List.length_eq_zero_iff.mp (by have := length_le_byteLength r; omega)
      rw [hr, List.append_nil]
      exact ⟨hu.symm, s, hq⟩
    | malformed | danglingSeparator | orderedBulk | invalidCount => cases hn

theorem exists_completion_findFirst :
    parse {} "findFirst".toList = .error (.unterminated 9 [.digits]) ∧
      ∃ s q, parse {} ("findFirst".toList ++ s) = .ok q := by
  have hf : (Scan.transcript {} "findFirst".toList).fault = some (.unterminated 9 [.digits]) := by
    decide +kernel
  have h : parse {} "findFirst".toList = .error (.unterminated 9 [.digits]) :=
    parse_eq_error_iff.mpr (by simp only [tokenize, hf])
  exact ⟨h, ((exists_completion_of_parse_error h).2.2 9 _ rfl).2⟩

end Rejected

end DerivedQuery
