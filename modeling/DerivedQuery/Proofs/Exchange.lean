import DerivedQuery.Proofs.Assembly

/-!
# What follows may be exchanged

What has been cut off a name stays as it is when the text behind it is exchanged for another one,
as long as the new text opens no longer word with what stands before it.

* `Exchangeable`: a text that may stand in another one's place;
* `Safe`: behind some letters, it completes no word that the other one does not complete;
* **`Lexeme.exchange`**, `Lexeme.exchangeable`: one lexeme stays, and may itself be part of what is
  exchanged;
* **`Cuts.exchange`**: a row of lexemes stays.
-/

namespace DerivedQuery

/-- In the mode and behind the character, the text `s` may stand in the place of `r`. -/
structure Exchangeable (m : Mode) (previous : Option Char) (r s : Text) : Prop where
  /-- No word that begins earlier is completed; none ends with the digits of a limit. -/
  subsumes : m ≠ .limited → Subsumes r s
  atBoundary : atBoundary r = true → atBoundary s = true
  digits : r.takeWhile Char.isDigit = [] → s.takeWhile Char.isDigit = []
  /-- After a preamble the action stays. -/
  action : m = .initial → ∀ a : Action, Leads a.capitalized r → Leads a.capitalized s
  /-- After a separator there is still a letter. -/
  letter : previous = some separator → m.isWithinPath = true ∨ m = .orderStart →
    (∃ d ds, r = d :: ds ∧ d.isAlpha = true) → ∃ d ds, s = d :: ds ∧ d.isAlpha = true
  /-- A segment still stops. -/
  segment : m.isWithinPath = true → previous ≠ some separator →
    segmentContinues m.accepts r = false → segmentContinues m.accepts s = false
  /-- The first word of a path still opens no limit. -/
  limit : m.isWithinPath = true → r ≠ [] → longestKeyword? endsLimit r = none →
    s ≠ [] ∧ longestKeyword? endsLimit s = none

/-- The same cursor in front of another text. -/
def Cursor.withRest (c : Cursor) (s : Text) : Cursor := { c with rest := s }

section Exchange

variable {settings : Settings} {m m' : Mode} {b : Bool} {prev : Option Char} {p : Piece}
  {r s u : Text} {c c' : Cursor} {ps : List Piece}

theorem Subsumes.leadingAction?_eq_none (h : Subsumes r s) (hu : u ≠ [])
    (hn : leadingAction? (u ++ r) = none) : leadingAction? (u ++ s) = none := by
  rw [leadingAction?_eq_none_iff] at hn ⊢
  exact fun a ha => hn a (h.leads (.inr ⟨hu, a.keyword_mem_words⟩) ha)

theorem Subsumes.capitalizedAction?_eq_none (h : Subsumes r s) (hu : u ≠ [])
    (hn : capitalizedAction? (u ++ r) = none) : capitalizedAction? (u ++ s) = none := by
  rw [capitalizedAction?_eq_none_iff] at hn ⊢
  exact fun a ha => hn a (h.leads (.inr ⟨hu, a.capitalized_mem_words⟩) ha)

theorem Subsumes.longestKeyword?_eq_some {accepts : Category → Bool} {k : Keyword}
    (h : Subsumes r s) (hb : DerivedQuery.atBoundary s = true)
    (hk : longestKeyword? accepts (k.text ++ r) = some k) :
    longestKeyword? accepts (k.text ++ s) = some k := by
  rw [longestKeyword?_eq_some_iff] at hk ⊢
  obtain ⟨hmem, ha, -, hmax⟩ := hk
  obtain ⟨c, cs, he, -⟩ := Keyword.exists_cons hmem
  exact ⟨hmem, ha, leads_append_iff.mpr hb, fun l hl hla hs =>
    hmax l hl hla (h.leads (.inr ⟨by simp [he], Keyword.mem_words hl⟩) hs)⟩

/-- Behind `u`, the text `s` completes no word that begins there and that `r` does not complete. -/
def Safe (r s u : Text) : Prop := ∀ word ∈ words, Leads word (u ++ s) → Leads word (u ++ r)

theorem Subsumes.safe (h : Subsumes r s) (hu : u ≠ []) : Safe r s u :=
  fun _ hword hl => h.leads (.inr ⟨hu, hword⟩) hl

theorem Safe.longestKeyword?_eq_none {accepts : Category → Bool} (h : Safe r s u)
    (hn : longestKeyword? accepts (u ++ r) = none) : longestKeyword? accepts (u ++ s) = none := by
  rw [longestKeyword?_eq_none_iff] at hn ⊢
  exact fun k hk ha hl => hn k hk ha (h k.text (Keyword.mem_words hk) hl)

theorem Safe.segmentContinues {accepts : Category → Bool} (h : Safe r s u) (hu : u ≠ [])
    (hc : DerivedQuery.segmentContinues accepts (u ++ r) = true) :
    DerivedQuery.segmentContinues accepts (u ++ s) = true := by
  obtain ⟨d, ds, rfl⟩ := List.exists_cons_of_ne_nil hu
  rw [List.cons_append, DerivedQuery.segmentContinues] at hc ⊢
  simp only [Bool.or_eq_true, Bool.and_eq_true, Option.isNone_iff_eq_none] at hc ⊢
  exact hc.imp_right fun hup => ⟨hup.1, h.longestKeyword?_eq_none hup.2⟩

theorem Safe.segmentTail_eq {accepts : Category → Bool}
    (h : ∀ w, w <:+ u → w ≠ [] → Safe r s w)
    (hs : DerivedQuery.segmentContinues accepts s = false)
    (ht : segmentTail accepts (u ++ r) = u) : segmentTail accepts (u ++ s) = u := by
  rw [segmentTail_append_eq_iff] at ht ⊢
  exact ⟨hs, fun w hw hne => (h w hw hne).segmentContinues hne (ht.2 w hw hne)⟩

theorem Subsumes.segmentTail_eq {accepts : Category → Bool} (h : Subsumes r s)
    (hs : segmentContinues accepts r = false → segmentContinues accepts s = false)
    (ht : segmentTail accepts (u ++ r) = u) : segmentTail accepts (u ++ s) = u :=
  Safe.segmentTail_eq (fun _ _ hne => h.safe hne) (hs (segmentTail_append_eq_iff.mp ht).1) ht

/-- What follows the first letters of a word in camel case begins in lower case. -/
theorem isLower_of_eq_append {word : Text} {d : Char} {ds : Text}
    (hword : ∀ y ∈ word.tail.tails, y.head?.all Char.isLower = true) (hu : u ≠ [])
    (h : word = u ++ d :: ds) : d.isLower = true := by
  have hm : d :: ds ∈ word.tail.tails := by
    rw [List.mem_tails, h, List.tail_append_of_ne_nil hu]
    exact List.suffix_append _ _
  simpa using hword _ hm

theorem limitRun?_eq_none_of_safe (hb : DerivedQuery.atBoundary s = true) (hu : u ≠ [])
    (hl : u = limitWord → r ≠ [] → longestKeyword? endsLimit r = none →
      s ≠ [] ∧ longestKeyword? endsLimit s = none)
    (hsafe : ∀ w, w ≠ [] → u = limitWord ++ w → Safe r s w)
    (hn : limitRun? settings (u ++ r) = none) : limitRun? settings (u ++ s) = none := by
  rw [limitRun?_eq_none_iff] at hn ⊢
  intro after he
  have hw : ∃ w, u = limitWord ++ w ∧ after = w ++ s := by
    rcases List.append_eq_append_iff.mp he with ⟨w, hw, rfl⟩ | hw
    · cases w with
      | nil => exact ⟨[], by simpa using hw.symm, rfl⟩
      | cons d ds =>
        have hd := isLower_of_eq_append (by decide) hu hw
        simp [DerivedQuery.atBoundary, hd] at hb
    · exact hw
  obtain ⟨w, rfl, rfl⟩ := hw
  obtain ⟨hd, hne, hk⟩ := hn (w ++ r) (List.append_assoc _ _ _)
  cases w with
  | nil =>
    obtain ⟨hs, hks⟩ := hl (List.append_nil _) hne hk
    exact ⟨takeWhile_isDigit_of_atBoundary hb, hs, hks⟩
  | cons d ds =>
    refine ⟨?_, by simp, (hsafe _ (List.cons_ne_nil d ds) rfl).longestKeyword?_eq_none hk⟩
    simpa [List.takeWhile_cons] using hd

theorem Subsumes.limitRun?_eq_none (h : Subsumes r s) (hu : u ≠ [])
    (hb : DerivedQuery.atBoundary s = true)
    (hl : r ≠ [] → longestKeyword? endsLimit r = none → s ≠ [] ∧ longestKeyword? endsLimit s = none)
    (hn : limitRun? settings (u ++ r) = none) : limitRun? settings (u ++ s) = none :=
  limitRun?_eq_none_of_safe hb hu (fun _ => hl) (fun _ hne _ => h.safe hne) hn

/-- Only a preamble leads to where an action must follow, and only a limit to where digits may. -/
theorem Mode.of_next? {k : Kind} (h : m.next? k = some m') :
    (m' = .initial → k = .preamble) ∧ (m' = .limited ↔ k.category = .first) := by
  cases k with
  | preamble =>
    obtain ⟨-, ⟨⟩⟩ := Option.ite_none_right_eq_some.mp h
    exact ⟨fun _ => rfl, by decide⟩
  | action a =>
    obtain ⟨-, ⟨⟩⟩ := Option.ite_none_right_eq_some.mp h
    cases a <;> decide
  | pathStart | pathPart | separator | negation | ignoreCase =>
    cases m <;> cases h <;> decide
  | _ =>
    obtain ⟨-, ⟨⟩⟩ := Option.ite_none_right_eq_some.mp h
    simp [Kind.category]

theorem Mode.ne_limited {k : Kind} (h : m.next? k = some m') (hk : k.category ≠ .first) :
    m' ≠ .limited := fun hm => hk ((Mode.of_next? h).2.mp hm)

theorem Cut.mode_ne_initial (h : Cut settings c p c') (hc : c.mode ≠ .initial) :
    c'.mode ≠ .initial := by
  intro hm
  have hn := h.next?
  rw [hm] at hn
  rw [(Mode.of_next? hn).1 rfl] at hn
  exact hc (Option.ite_none_right_eq_some.mp hn).1

theorem Cuts.mode_ne_initial (h : Cuts settings c ps c') (hc : c.mode ≠ .initial) :
    c'.mode ≠ .initial := by
  induction h with
  | nil => exact hc
  | cons hcut _ ih => exact ih (hcut.mode_ne_initial hc)

/-- **What is cut stays** when the text behind it is exchanged. -/
theorem Lexeme.exchange (h : Lexeme settings m b prev p r) (hn : m.next? p.kind = some m')
    (hp : p.kind ≠ .finish) (hx : Exchangeable m' (p.text.getLast?.or prev) r s) :
    Lexeme settings m b prev p s := by
  cases h with
  | finish => exact absurd rfl hp
  | leading h => exact .leading (hx.atBoundary h)
  | capitalized h => exact .capitalized (hx.atBoundary h)
  | @preamble u a _ _ _ hu hl h =>
    obtain rfl : Mode.initial = m' := Option.some.inj hn
    have hsub := hx.subsumes (by decide)
    obtain ⟨ha, hu', hn⟩ := splitAtAction_append_eq_ok_iff.mp h
    have hs : capitalizedAction? s = some a :=
      capitalizedAction?_eq_some_iff.mpr (hx.action rfl a (capitalizedAction?_eq_some_iff.mp ha))
    exact .preamble hu (hsub.leadingAction?_eq_none hu hl) (splitAtAction_append_eq_ok_iff.mpr
      ⟨hs, hu', fun w hw hne => hsub.capitalizedAction?_eq_none hne (hn w hw hne)⟩)
  | limit ha hd ht hl =>
    refine .limit ha hd ?_ hl
    rw [takeWhile_append_eq_iff] at ht ⊢
    exact ht.imp_right hx.digits
  | keyword hw hk ho =>
    obtain ⟨hmem, -, hlead, -⟩ := longestKeyword?_eq_some_iff.mp hk
    have hsub := hx.subsumes (Mode.ne_limited hn (Keyword.category_ne_first hmem))
    have hb := hx.atBoundary (leads_append_iff.mp hlead)
    exact .keyword hw (hsub.longestKeyword?_eq_some hb hk) ho
  | @pathStart _ within _ _ c cs _ ha hw hs hl hk ht =>
    obtain rfl : within = m' := Option.some.inj (hw.symm.trans hn)
    have hwithin := Mode.isWithinPath_of_pathMode? hw
    have hsub := hx.subsumes (Mode.ne_limited hn nofun)
    have hb := (segmentTail_append_eq_iff.mp ht).1
    refine .pathStart ha hw hs (fun hf => ?_) ?_ ?_
    · exact hsub.limitRun?_eq_none (List.cons_ne_nil c cs)
        (hx.atBoundary (atBoundary_of_not_segmentContinues hb)) (hx.limit hwithin) (hl hf)
    · exact hsub.longestKeyword?_eq_none (List.cons_ne_nil c cs) hk
    · exact hsub.segmentTail_eq (hx.segment hwithin
        (getLast?_or_ne_separator (isAlpha_of_startsPath hs) ht)) ht
  | pathSeparator hm hs hd =>
    obtain rfl := Option.some.inj ((Mode.next?_part hm).1.symm.trans hn)
    obtain ⟨d, ds, rfl, hd⟩ := hx.letter rfl (.inl hm) ⟨_, _, rfl, hd⟩
    exact .pathSeparator hm hs hd
  | pathPart hm hc ht =>
    obtain rfl := Option.some.inj ((Mode.next?_part hm).2.symm.trans hn)
    have hsub := hx.subsumes (Mode.ne_limited hn nofun)
    exact .pathPart hm hc
      (hsub.segmentTail_eq (hx.segment hm (getLast?_or_ne_separator hc ht)) ht)
  | itemSeparator hs hd =>
    obtain rfl : Mode.orderStart = m' := Option.some.inj hn
    obtain ⟨d, ds, rfl, hd⟩ := hx.letter rfl (.inr rfl) ⟨_, _, rfl, hd⟩
    exact .itemSeparator hs hd

theorem Mode.accepts_eq_false (hm : m.isWithinPath = true) :
    m.accepts .first = false ∧ m.accepts .property = false := by
  revert hm
  cases m <;> decide

theorem Lexeme.not_segmentContinues (h : Lexeme settings m b prev p r) (hm : m.isWithinPath = true)
    (hs : prev ≠ some separator) : segmentContinues m.accepts (p.text ++ r) = false := by
  cases h with
  | finish => rfl
  | keyword _ hk =>
    obtain ⟨c, cs, he, hc⟩ := Keyword.exists_cons (longestKeyword?_eq_some_iff.mp hk).1
    rw [he, List.cons_append] at hk ⊢
    simp [segmentContinues, isLower_eq_false_of_isUpper hc, isDigit_eq_false_of_isUpper hc, hk]
  | pathSeparator => simp [segmentContinues, separator]
  | pathPart => exact absurd rfl hs
  | limit ha => exact absurd ha (by simp [(Mode.accepts_eq_false hm).1])
  | pathStart ha => exact absurd ha (by simp [(Mode.accepts_eq_false hm).2])
  | leading | capitalized | preamble | itemSeparator => cases hm

theorem Subsumes.of_digits {digits : Text} (u r s : Text) (hd : digits ≠ [])
    (h : ∀ c ∈ digits, c.isDigit = true) : Subsumes (u ++ digits ++ r) (u ++ digits ++ s) := by
  intro w hw hl
  rcases leads_append_cases hl with ⟨v, hv, he, hb⟩ | ⟨w', rfl, -⟩
  · rw [atBoundary_append hv] at hb
    exact ⟨v ++ r, by rw [he, List.append_assoc], by rwa [atBoundary_append hv]⟩
  · have key : ∀ word ∈ words, word.any Char.isDigit = false := by decide +kernel
    obtain ⟨v, -, hm⟩ := hw
    obtain ⟨c, hc⟩ := List.exists_mem_of_ne_nil _ hd
    have hany := List.any_eq_false.mp (key _ hm) c (by simp [hc])
    exact absurd (h c hc) hany

theorem Lexeme.subsumes_append (h : Lexeme settings m b prev p r) (hn : m.next? p.kind = some m')
    (hx : Exchangeable m' (p.text.getLast?.or prev) r s) :
    Subsumes (p.text ++ r) (p.text ++ s) := by
  cases h with
  | limit _ hd ht => exact .of_digits limitWord r s hd (takeWhile_append_eq_iff.mp ht).1
  | keyword _ hk =>
    have hmem := (longestKeyword?_eq_some_iff.mp hk).1
    exact (hx.subsumes (Mode.ne_limited hn (Keyword.category_ne_first hmem))).append _
  | _ => exact (hx.subsumes (Mode.ne_limited hn nofun)).append _

theorem Lexeme.leads_capitalized (h : Lexeme settings .initial b prev p r)
    (hb : DerivedQuery.atBoundary r = true → DerivedQuery.atBoundary s = true) {a : Action}
    (ha : Leads a.capitalized (p.text ++ r)) : Leads a.capitalized (p.text ++ s) := by
  cases h with
  | @leading a' =>
    obtain ⟨t, ht, -⟩ := ha
    obtain ⟨c, cs, he, hc⟩ := a'.exists_keyword_eq_cons
    obtain ⟨d, ds, he', hd⟩ := a.exists_capitalized_eq_cons
    simp only [he, he', List.cons_append, List.cons.injEq] at ht
    rw [ht.1, isLower_eq_false_of_isUpper hd] at hc
    cases hc
  | @capitalized a' _ _ _ hr =>
    have ha' : Leads a'.capitalized (a'.capitalized ++ r) := leads_append_iff.mpr hr
    rw [← capitalizedAction?_eq_some_iff] at ha ha'
    obtain rfl := Option.some.inj (ha.symm.trans ha')
    exact leads_append_iff.mpr (hb hr)
  | preamble hu hl h =>
    have hn := (splitAtAction_append_eq_ok_iff.mp h).2.2 _ List.suffix_rfl hu
    exact absurd ha (capitalizedAction?_eq_none_iff.mp hn a)
  | keyword _ hk =>
    obtain ⟨hmem, hacc, -, -⟩ := longestKeyword?_eq_some_iff.mp hk
    exact absurd rfl (Mode.ne_of_accepts (Keyword.category_ne_action hmem) hacc).1
  | limit hi | pathStart hi | finish hi => cases hi
  | pathSeparator hm | pathPart hm => cases hm

theorem Mode.ne_limited_of_isWithinPath {k : Kind} (hm : m.isWithinPath = true)
    (h : m.next? k = some m') : m' ≠ .limited := by
  refine Mode.ne_limited h fun hk => ?_
  cases k <;> cases hk
  revert h
  cases m <;> cases hm <;> exact nofun

/-- What is cut may itself be part of what is exchanged. -/
theorem Lexeme.exchangeable (h : Lexeme settings m b prev p r) (hn : m.next? p.kind = some m')
    (hp : p.kind ≠ .finish) (hx : Exchangeable m' (p.text.getLast?.or prev) r s) :
    Exchangeable m prev (p.text ++ r) (p.text ++ s) := by
  obtain ⟨d, ds, he⟩ := List.exists_cons_of_ne_nil (h.text_ne_nil hp)
  have hsub := h.subsumes_append hn hx
  have h' := h.exchange hn hp hx
  refine ⟨fun _ => hsub, ?_, ?_, ?_, ?_, fun hm hs _ => h'.not_segmentContinues hm hs, ?_⟩
  · simp [he, DerivedQuery.atBoundary]
  · simp [he, List.takeWhile_cons]
  · rintro rfl a ha
    exact h.leads_capitalized hx.atBoundary ha
  · rintro - - ⟨e, es, hr, ha⟩
    rw [he, List.cons_append, List.cons.injEq] at hr
    exact ⟨d, ds ++ s, by rw [he, List.cons_append], hr.1 ▸ ha⟩
  · intro hm _ hk
    have hne : p.text ≠ [] := by simp [he]
    have hsub' := hx.subsumes (Mode.ne_limited_of_isWithinPath hm hn)
    exact ⟨by simp [he], hsub'.longestKeyword?_eq_none hne hk⟩

theorem Cut.exchange (h : Cut settings c p c') (hp : p.kind ≠ .finish)
    (hx : Exchangeable c'.mode c'.previous c'.rest s) :
    Cut settings (c.withRest (p.text ++ s)) p (c'.withRest s) ∧
      Exchangeable c.mode c.previous c.rest (p.text ++ s) := by
  rw [h.previous] at hx
  refine ⟨⟨h.lexeme.exchange h.next? hp hx, h.next?, rfl, h.isBulk, h.previous⟩, ?_⟩
  rw [h.rest]
  exact h.lexeme.exchangeable h.next? hp hx

/-- **What has been cut stays** when the text behind it is exchanged. -/
theorem Cuts.exchange (h : Cuts settings c ps c') (hd : c'.mode ≠ .done)
    (hx : Exchangeable c'.mode c'.previous c'.rest s) :
    Cuts settings (c.withRest (textOf ps ++ s)) ps (c'.withRest s) ∧
      Exchangeable c.mode c.previous c.rest (textOf ps ++ s) := by
  induction h with
  | nil c => exact ⟨.nil _, hx⟩
  | @cons c p c₁ ps c' h t ih =>
    obtain ⟨hcuts, hx'⟩ := ih hd hx
    have hp : p.kind ≠ .finish := fun hk => by
      have hm := Mode.eq_done_of_finish (hk ▸ h.next?)
      cases t with
      | nil => exact hd hm
      | cons h' => exact stuck_of_done hm _ _ h'
    obtain ⟨hcut, hx''⟩ := h.exchange hp hx'
    rw [textOf_cons, List.append_assoc]
    exact ⟨.cons hcut hcuts, hx''⟩

end Exchange

end DerivedQuery
