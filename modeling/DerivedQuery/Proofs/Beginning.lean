import DerivedQuery.Proofs.Reading

/-!
# Where a name begins

Every name begins with an action, in front of which there may be a preamble. What a name comes to is
decided from where its first lexemes lead.

* `Cuts.tokenize_ok_iff`, `Cuts.tokenize_error_iff`, `Cuts.parse_ok_iff`: the tokens, the fault and
  the query of a name, read on from its first lexemes;
* `Cursor.behindAction`: where the scan stands behind an action; `cut_keyword`, `cuts_actionPieces`:
  both forms of an action lead there;
* `actionOf?`: the action of a name; **`Cuts.exists_actionOf?`**: a scan that has passed it knows
  whether it is one on many records.
-/

namespace DerivedQuery

/-! ## From the first lexemes on -/

section Front

variable {settings : Settings} {name : Text} {c : Cursor} {d : Draft} {ps : List Piece} {q : Query}

theorem Cuts.tokenize_ok_iff (h : Cuts settings (.ofName name) ps c) {ts : List Token} :
    tokenize settings name = .ok ts ↔
      ∃ qs c', Cuts settings c qs c' ∧ c'.mode = .done ∧ ts = place 0 (ps ++ qs) := by
  rw [tokenize_eq_ok_iff]
  constructor
  · rintro ⟨rs, c', hcuts, hdone, rfl⟩
    obtain ⟨qs, rfl, hqs⟩ := h.of_front hcuts (stuck_of_done hdone)
    exact ⟨qs, c', hqs, hdone, rfl⟩
  · rintro ⟨qs, c', hqs, hdone, rfl⟩
    exact ⟨ps ++ qs, c', h.append hqs, hdone, rfl⟩

theorem Cuts.tokenize_error_iff (h : Cuts settings (.ofName name) ps c) {e : Diagnostic} :
    tokenize settings name = .error e ↔
      ∃ qs c' e', Cuts settings c qs c' ∧ c'.mode ≠ .done ∧ nextPiece settings c' = .error e' ∧
        e = e'.shift (byteLength (textOf (ps ++ qs))) := by
  rw [tokenize_eq_error_iff]
  constructor
  · rintro ⟨rs, c', e', hcuts, hdone, he, rfl⟩
    obtain ⟨qs, rfl, hqs⟩ := h.of_front hcuts (stuck_of_error he)
    exact ⟨qs, c', e', hqs, hdone, he, rfl⟩
  · rintro ⟨qs, c', e', hqs, hdone, he, rfl⟩
    exact ⟨ps ++ qs, c', e', h.append hqs, hdone, he, rfl⟩

/-- The query of a name is what is read from where its first lexemes lead. -/
theorem Cuts.parse_ok_iff (h : Cuts settings (.ofName name) ps c)
    (hd : (place 0 ps).foldlM Draft.add {} = .ok d) :
    parse settings name = .ok q ↔
      ∃ c' d', Reads settings c d c' d' ∧ c'.mode = .done ∧ ∀ n, d'.finish n = .ok q := by
  obtain ⟨d₁, hreads, -, hfold⟩ := h.exists_reads Draft.fits_empty
  obtain rfl : d = d₁ := Except.ok.inj (hd.symm.trans (hfold 0))
  rw [parse_eq_ok_iff]
  constructor
  · rintro ⟨c', d', hreads', hdone, hq⟩
    exact ⟨c', d', hreads.of_front hreads' hdone, hdone, hq⟩
  · rintro ⟨c', d', hreads', hdone, hq⟩
    exact ⟨c', d', hreads.trans hreads', hdone, hq⟩

end Front

/-! ## Behind an action -/

/-- Where a scan stands behind an action, in front of a text. -/
def Cursor.behindAction (a : Action) (r : Text) : Cursor :=
  ⟨.afterAction a, a.isBulk, a.keyword.getLast?, r⟩

/-- The action of a name: at its start, or the first one behind a preamble. -/
def actionOf? (name : Text) : Option Action :=
  match leadingAction? name with
  | some a => some a
  | none =>
    match splitAtAction name with
    | .ok (_, a) => some a
    | .error _ => none

section Behind

variable {settings : Settings} {name u r : Text} {a : Action} {c c' : Cursor} {ps : List Piece}

theorem Action.getLast?_keyword_or (a : Action) (prev : Option Char) :
    a.keyword.getLast?.or prev = a.keyword.getLast? := by cases a <;> rfl

theorem Action.getLast?_capitalized_or (a : Action) (prev : Option Char) :
    a.capitalized.getLast?.or prev = a.keyword.getLast? := by cases a <;> rfl

theorem Action.afterAction_ne_initial (a : Action) : Mode.afterAction a ≠ .initial := by
  cases a <;> nofun

theorem cut_keyword (a : Action) (hr : atBoundary r = true) :
    Cut settings (.ofName (a.keyword ++ r)) (actionPiece a a.keyword) (.behindAction a r) where
  lexeme := .leading hr
  next? := rfl
  rest := rfl
  isBulk := (Bool.false_or _).symm
  previous := (a.getLast?_keyword_or none).symm

theorem cut_capitalized (a : Action) (hr : atBoundary r = true) (prev : Option Char) :
    Cut settings ⟨.initial, false, prev, a.capitalized ++ r⟩ (actionPiece a a.capitalized)
      (.behindAction a r) where
  lexeme := .capitalized hr
  next? := rfl
  rest := rfl
  isBulk := (Bool.false_or _).symm
  previous := (a.getLast?_capitalized_or prev).symm

theorem cuts_actionPieces (hr : atBoundary r = true)
    (hl : leadingAction? (u ++ (a.capitalized ++ r)) = none)
    (hs : splitAtAction (u ++ (a.capitalized ++ r)) = .ok (u, a)) :
    Cuts settings (.ofName (u ++ (a.capitalized ++ r))) (actionPieces u a)
      (.behindAction a r) := by
  by_cases hu : u = []
  · subst hu
    exact (cut_capitalized a hr none).cuts
  · have hlex : Lexeme settings .initial false none ⟨.preamble, u⟩ (a.capitalized ++ r) :=
      .preamble hu hl hs
    rw [actionPieces, if_neg hu]
    exact .cons (hlex.cut rfl) (cut_capitalized a hr _).cuts

theorem exists_cuts_of_leadingAction? (settings : Settings) (h : leadingAction? name = some a) :
    ∃ r, Cuts settings (.ofName name) [actionPiece a a.keyword] (.behindAction a r) := by
  obtain ⟨r, rfl, hr⟩ := leadingAction?_eq_some_iff.mp h
  exact ⟨r, (cut_keyword a hr).cuts⟩

theorem exists_cuts_of_splitAtAction (settings : Settings) (hl : leadingAction? name = none)
    (hs : splitAtAction name = .ok (u, a)) :
    ∃ r, Cuts settings (.ofName name) (actionPieces u a) (.behindAction a r) := by
  obtain ⟨t, rfl, ht⟩ := exists_of_splitAtAction hs
  obtain ⟨r, rfl, hr⟩ := capitalizedAction?_eq_some_iff.mp ht
  exact ⟨r, cuts_actionPieces hr hl hs⟩

theorem exists_cuts_of_actionOf? (h : actionOf? name = some a) :
    ∃ ps r, Cuts settings (.ofName name) ps (.behindAction a r) := by
  rw [actionOf?] at h
  split at h
  · next b hb =>
    cases h
    exact ⟨_, exists_cuts_of_leadingAction? settings hb⟩
  · next hl =>
    split at h
    · next u b hs =>
      cases h
      exact ⟨_, exists_cuts_of_splitAtAction settings hl hs⟩
    · cases h

/-- Nothing is cut off a name that has no action. -/
theorem exists_error_of_actionOf? (h : actionOf? name = none) :
    ∃ e, nextPiece settings (.ofName name) = .error e := by
  rw [actionOf?] at h
  split at h
  · cases h
  · next hl =>
    split at h
    · cases h
    · next e hs =>
      rw [Cursor.ofName, nextPiece_eq_front (partPiece?_eq_none rfl), nextRun]
      by_cases hn : name = []
      · exact ⟨_, by rw [if_pos hn]; rfl⟩
      · exact ⟨e, by rw [if_neg hn, if_pos rfl, actionRun, hl, hs]; rfl⟩

theorem Cuts.isBulk_eq (h : Cuts settings c ps c') (hi : c.mode ≠ .initial) :
    c'.isBulk = c.isBulk := by
  induction h with
  | nil => rfl
  | cons hcut _ ih => rw [ih (hcut.mode_ne_initial hi), hcut.isBulk_eq hi]

/-- **A scan that has passed the action** of a name knows whether it is one on many records. -/
theorem Cuts.exists_actionOf? (h : Cuts settings (.ofName name) ps c) (hi : c.mode ≠ .initial) :
    ∃ a, actionOf? name = some a ∧ c.isBulk = a.isBulk := by
  cases ha : actionOf? name with
  | none =>
    obtain ⟨e, he⟩ : ∃ e, nextPiece settings (.ofName name) = .error e :=
      exists_error_of_actionOf? ha
    cases h with
    | nil => exact absurd rfl hi
    | cons hcut _ => exact absurd hcut (stuck_of_error he _ _)
  | some a =>
    obtain ⟨qs, r, hqs⟩ : ∃ qs r, Cuts settings (.ofName name) qs (.behindAction a r) :=
      exists_cuts_of_actionOf? ha
    refine ⟨a, rfl, ?_⟩
    -- the scan stands behind the action or at it, and neither way is another action passed
    rcases h.comparable hqs with ⟨rs, -, hrs⟩ | ⟨rs, -, hrs⟩
    · exact (hrs.isBulk_eq hi).symm
    · exact hrs.isBulk_eq a.afterAction_ne_initial

end Behind

end DerivedQuery
