import DerivedQuery.Proofs.Keyword
import DerivedQuery.Scan

/-!
# Lexemes

Runs are cut into pieces one by one. Within a path the next piece depends on the character before
it and on the one that follows; everywhere else it is the first piece of the next run.

* `segmentTail`: how far a segment goes;
* `Cursor`, `nextPiece`: the piece that is cut next;
* `Lexeme`: a piece in front of the text that follows it, form by form;
* **`nextPiece_eq_ok_iff`**: the next piece is the lexeme at the start of the text.
-/

namespace DerivedQuery

/-! ## Segments -/

/-- Whether a mode is within a path. -/
def Mode.isWithinPath : Mode → Bool
  | projected | criterion | ordered => true
  | _ => false

/-- The characters with which a segment goes on. -/
def segmentTail (accepts : Category → Bool) : Text → Text
  | [] => []
  | c :: cs => if segmentContinues accepts (c :: cs) then c :: segmentTail accepts cs else []

section Segment

variable {accepts : Category → Bool}

theorem exists_eq_segmentTail_append (accepts : Category → Bool) (t : Text) :
    ∃ r, t = segmentTail accepts t ++ r := by
  induction t with
  | nil => exact ⟨[], rfl⟩
  | cons c cs ih =>
    obtain ⟨r, hr⟩ := ih
    rw [segmentTail]
    split
    · exact ⟨r, congrArg (c :: ·) hr⟩
    · exact ⟨c :: cs, rfl⟩

theorem forall_suffix_cons_iff {P : Text → Prop} {c : Char} {cs : Text} :
    (∀ w, w <:+ c :: cs → w ≠ [] → P w) ↔ P (c :: cs) ∧ ∀ w, w <:+ cs → w ≠ [] → P w := by
  constructor
  · intro h
    exact ⟨h _ List.suffix_rfl (List.cons_ne_nil c cs),
      fun w hw => h w (hw.trans (List.suffix_cons c cs))⟩
  · rintro ⟨h, ht⟩ w hw hne
    rcases List.suffix_cons_iff.mp hw with rfl | hw
    · exact h
    · exact ht w hw hne

/-- A segment goes on through a text and stops before what follows. -/
theorem segmentTail_append_eq_iff {u r : Text} :
    segmentTail accepts (u ++ r) = u ↔
      segmentContinues accepts r = false ∧
        ∀ w, w <:+ u → w ≠ [] → segmentContinues accepts (w ++ r) = true := by
  induction u with
  | nil =>
    cases r with
    | nil => simp [segmentTail, segmentContinues]
    | cons c cs =>
      rw [List.nil_append, segmentTail]
      split
      · next h => simp [h]
      · next h => simp [Bool.not_eq_true _ ▸ h]
  | cons c cs ih =>
    rw [List.cons_append, segmentTail, forall_suffix_cons_iff, List.cons_append]
    split
    · next h => rw [List.cons.injEq, and_iff_right rfl, ih, and_iff_right h]
    · next h => exact iff_of_false (by simp) fun hc => h hc.2.1

theorem isAlphanum_of_segmentContinues {c : Char} {cs : Text}
    (h : segmentContinues accepts (c :: cs) = true) : c.isAlphanum = true := by
  simp only [segmentContinues, Bool.or_eq_true, Bool.and_eq_true] at h
  simp only [Char.isAlphanum, Char.isAlpha, Bool.or_eq_true]
  tauto

theorem isAlphanum_of_mem_segmentTail {t : Text} : ∀ c ∈ segmentTail accepts t,
    c.isAlphanum = true := by
  induction t with
  | nil => simp [segmentTail]
  | cons d ds ih =>
    rw [segmentTail]
    split
    · next h => exact List.forall_mem_cons.mpr ⟨isAlphanum_of_segmentContinues h, ih⟩
    · simp

theorem atBoundary_of_not_segmentContinues {r : Text} (h : segmentContinues accepts r = false) :
    atBoundary r = true := by
  cases r with
  | nil => rfl
  | cons c cs =>
    simp only [segmentContinues, Bool.or_eq_false_iff] at h
    simp [atBoundary, h.1.1, h.1.2]

theorem fst_pathTail (t : Text) : (pathTail accepts t).1 = segmentTail accepts t := by
  fun_induction pathTail accepts t with
  | case1 => rfl
  | case2 c cs h tail ih => simp only [segmentTail, h, if_true, tail, ih]
  | case3 d ds hd tail h ih => simp [segmentTail, h]
  | case4 d ds hd h => simp [segmentTail, h]
  | case5 h => simp [segmentTail, h]
  | case6 c cs h hs => simp [segmentTail, h]

end Segment

/-! ## The next piece -/

/-- Where a scan stands: its mode, whether an action on many records has been cut, the last
character that has been cut, and what has not been cut yet. -/
@[ext]
structure Cursor where
  mode : Mode
  isBulk : Bool
  previous : Option Char
  rest : Text

/-- The scan of a name begins here. -/
def Cursor.ofName (name : Text) : Cursor := ⟨.initial, false, none, name⟩

/-- The first piece of a run. -/
def Run.front (run : Run) : Except Diagnostic Piece :=
  match run.pieces, run.fault with
  | p :: _, _ => .ok p
  | [], some d => .error d
  | [], none => .error (.malformed 0 Mode.done.expected)

/-- The piece that continues a path: a separator, which needs a letter after it, and the segment
that begins with that letter. -/
def partPiece? (m : Mode) (previous : Option Char) : Text → Option (Except Diagnostic Piece)
  | [] => none
  | c :: cs =>
    if m.isWithinPath = false then none
    else if previous = some separator then
      if c.isAlpha then some (.ok ⟨.pathPart, c :: segmentTail m.accepts cs⟩)
      else some (.error (.danglingSeparator 0))
    else if c = separator then
      match cs with
      | d :: _ =>
        if d.isAlpha then some (.ok ⟨.separator, [separator]⟩)
        else some (.error (.danglingSeparator 0))
      | [] => some (.error (.danglingSeparator 0))
    else none

/-- The piece that is cut next, or the fault that stops the scan, counted from where it stands. -/
def nextPiece (settings : Settings) (c : Cursor) : Except Diagnostic Piece :=
  match partPiece? c.mode c.previous c.rest with
  | some result => result
  | none => (nextRun settings c.mode c.isBulk c.previous c.rest).front

/-- No limit is read at the start of the text. -/
def NoLimit (settings : Settings) (m : Mode) (t : Text) : Prop :=
  m.accepts .first = true → limitRun? settings t = none

/-- A piece that is cut in the mode, in front of the text that follows it. -/
inductive Lexeme (settings : Settings) : Mode → Bool → Option Char → Piece → Text → Prop
  | finish {m b prev} (h : m.accepts .finish = true) : Lexeme settings m b prev ⟨.finish, []⟩ []
  | leading {a b prev r} (h : atBoundary r = true) :
    Lexeme settings .initial b prev ⟨.action a, a.keyword⟩ r
  | capitalized {a b prev r} (h : atBoundary r = true) :
    Lexeme settings .initial b prev ⟨.action a, a.capitalized⟩ r
  | preamble {u a b prev r} (hu : u ≠ []) (hl : leadingAction? (u ++ r) = none)
    (h : splitAtAction (u ++ r) = .ok (u, a)) : Lexeme settings .initial b prev ⟨.preamble, u⟩ r
  | limit {m b prev n digits r} (ha : m.accepts .first = true) (hd : digits ≠ [])
    (ht : (digits ++ r).takeWhile Char.isDigit = digits) (hn : limitOf? settings digits = some n) :
    Lexeme settings m b prev ⟨.first n, limitWord ++ digits⟩ r
  | keyword {m b prev k r} (hp : m.isWithinPath = true → prev ≠ some separator)
    (h : longestKeyword? m.accepts (k.text ++ r) = some k)
    (ho : ¬ (k.kind = .ordering ∧ b = true)) : Lexeme settings m b prev ⟨k.kind, k.text⟩ r
  | pathStart {m within b prev c cs r} (ha : m.accepts .property = true)
    (hw : m.pathMode? = some within) (hs : startsPath prev c = true)
    (hl : NoLimit settings m (c :: cs ++ r)) (hk : longestKeyword? m.accepts (c :: cs ++ r) = none)
    (ht : segmentTail within.accepts (cs ++ r) = cs) :
    Lexeme settings m b prev ⟨.pathStart, c :: cs⟩ r
  | pathSeparator {m b prev d r} (hm : m.isWithinPath = true) (hp : prev ≠ some separator)
    (hd : d.isAlpha = true) : Lexeme settings m b prev ⟨.separator, [separator]⟩ (d :: r)
  | pathPart {m b c cs r} (hm : m.isWithinPath = true) (hc : c.isAlpha = true)
    (ht : segmentTail m.accepts (cs ++ r) = cs) :
    Lexeme settings m b (some separator) ⟨.pathPart, c :: cs⟩ r
  | itemSeparator {b prev d r} (hs : settings.separatedOrderItems = true)
    (hd : d.isAlpha = true) :
    Lexeme settings .directed b prev ⟨.separator, [separator]⟩ (d :: r)

/-- The kinds of tokens that have a keyword in the table. -/
def Kind.isKeyword : Kind → Bool
  | preamble | action _ | first _ | pathStart | pathPart | separator | finish => false
  | _ => true

theorem Kind.category_eq_property_iff {k : Kind} :
    k.category = .property ↔ k = .pathStart ∨ k = .pathPart := by
  cases k <;> simp [category]

theorem Keyword.isKeyword {k : Keyword} (hk : k ∈ Keyword.table) : k.kind.isKeyword = true := by
  have h : ∀ k ∈ Keyword.table, k.kind.isKeyword = true := by decide
  exact h k hk

theorem kind_ne_of_longestKeyword? {accepts : Category → Bool} {t : Text} {k : Keyword}
    (hk : longestKeyword? accepts t = some k) {kind : Kind} (hn : kind.isKeyword = false) :
    k.kind ≠ kind := by
  rintro rfl
  exact Bool.noConfusion (hn.symm.trans (Keyword.isKeyword (longestKeyword?_eq_some_iff.mp hk).1))

/-! ## Actions -/

theorem leadingAction?_cons_eq_none {c : Char} (cs : Text) (hc : c.isLower = false) :
    leadingAction? (c :: cs) = none := by
  rw [leadingAction?_eq_none_iff]
  rintro a ⟨r, hr, -⟩
  obtain ⟨d, ds, he, hd⟩ := a.exists_keyword_eq_cons
  rw [he] at hr
  rw [(List.cons.inj hr).1, hd] at hc
  exact Bool.noConfusion hc

theorem isNameChar_of_isUpper {c : Char} (h : c.isUpper = true) : isNameChar c = true := by
  simp [isNameChar, Char.isAlphanum, Char.isAlpha, h]

theorem splitAtAction_eq_ok_nil_iff {t : Text} {a : Action} :
    splitAtAction t = .ok ([], a) ↔ capitalizedAction? t = some a := by
  cases t with
  | nil =>
    obtain ⟨c, cs, he, -⟩ := a.exists_capitalized_eq_cons
    simp [splitAtAction, capitalizedAction?_eq_some_iff, Leads, he]
  | cons c cs =>
    rw [splitAtAction]
    split
    · cases hf : capitalizedAction? (c :: cs) with
      | some b => simp
      | none => cases splitAtAction cs <;> simp
    · next hc =>
      refine iff_of_false nofun fun h => hc ?_
      obtain ⟨r, hr, -⟩ := capitalizedAction?_eq_some_iff.mp h
      obtain ⟨d, ds, he, hd⟩ := a.exists_capitalized_eq_cons
      rw [he] at hr
      rw [(List.cons.inj hr).1]
      exact isNameChar_of_isUpper hd

/-- **What is split off before an action** is a text in which no action begins. -/
theorem splitAtAction_append_eq_ok_iff {u r : Text} {a : Action} :
    splitAtAction (u ++ r) = .ok (u, a) ↔
      capitalizedAction? r = some a ∧ (∀ c ∈ u, isNameChar c = true) ∧
        ∀ w, w <:+ u → w ≠ [] → capitalizedAction? (w ++ r) = none := by
  induction u with
  | nil => simpa using splitAtAction_eq_ok_nil_iff
  | cons c cs ih =>
    rw [List.cons_append, splitAtAction, forall_suffix_cons_iff, List.cons_append,
      List.forall_mem_cons]
    by_cases hc : isNameChar c = true
    · rw [if_pos hc, and_iff_right hc]
      cases hf : capitalizedAction? (c :: (cs ++ r)) with
      | some b => simp
      | none =>
        rw [and_iff_right rfl, ← ih]
        cases splitAtAction (cs ++ r) <;> simp [Prod.ext_iff]
    · simp [hc]

/-- What is split off before an action, and the text of the action. -/
theorem exists_of_splitAtAction {t u : Text} {a : Action} (h : splitAtAction t = .ok (u, a)) :
    ∃ r, t = u ++ r ∧ capitalizedAction? r = some a := by
  induction t generalizing u with
  | nil => cases h
  | cons c cs ih =>
    rw [splitAtAction] at h
    split at h
    · split at h
      · next a' ha =>
        cases h
        exact ⟨c :: cs, rfl, ha⟩
      · split at h
        · next v a' hv =>
          cases h
          obtain ⟨r, rfl, hr⟩ := ih hv
          exact ⟨r, rfl, hr⟩
        · cases h
    · cases h

/-! ## Limits -/

theorem takeWhile_append_eq_iff {p : Char → Bool} {u r : Text} :
    (u ++ r).takeWhile p = u ↔ (∀ c ∈ u, p c = true) ∧ r.takeWhile p = [] := by
  induction u with
  | nil => simp
  | cons c cs ih =>
    rw [List.cons_append, List.takeWhile_cons, List.forall_mem_cons]
    cases hc : p c <;> simp [ih]

theorem takeWhile_isDigit_of_atBoundary {t : Text} (h : atBoundary t = true) :
    t.takeWhile Char.isDigit = [] := by
  cases t with
  | nil => rfl
  | cons c cs =>
    simp only [atBoundary, Bool.not_eq_true', Bool.or_eq_false_iff] at h
    simp [h.2]

theorem limitRun?_eq_none_iff {settings : Settings} {t : Text} :
    limitRun? settings t = none ↔ ∀ after, t = limitWord ++ after →
      after.takeWhile Char.isDigit = [] ∧ after ≠ [] ∧ longestKeyword? endsLimit after = none := by
  unfold limitRun?
  split
  · next h =>
    refine iff_of_true rfl fun after he => ?_
    cases h.symm.trans (List.isPrefixOf?_eq_some_iff_append_eq.mpr he.symm)
  · next after h =>
    obtain rfl := List.isPrefixOf?_eq_some_iff_append_eq.mp h
    simp only [List.append_cancel_left_eq, forall_eq']
    split_ifs with hd he hk
    · exact iff_of_false (by split <;> simp) fun hn => hd hn.1
    · exact iff_of_false nofun fun hn => hn.2.1 he
    · exact iff_of_false nofun fun hn => by simp [hn.2.2] at hk
    · exact iff_of_true rfl ⟨by simpa using hd, he, by simpa using hk⟩

theorem Keyword.ne_limitWord_append {k : Keyword} (hk : k ∈ Keyword.table) (t after : Text) :
    k.text ++ t ≠ limitWord ++ after := by
  have h : ∀ k ∈ Keyword.table, ¬ k.text <+: limitWord ∧ ¬ limitWord <+: k.text := by
    decide +kernel
  intro he
  rcases List.prefix_or_prefix_of_prefix (he ▸ List.prefix_append k.text t)
    (List.prefix_append limitWord after) with hp | hp
  · exact (h k hk).1 hp
  · exact (h k hk).2 hp

theorem limitRun?_keyword {settings : Settings} {k : Keyword} (hk : k ∈ Keyword.table) (t : Text) :
    limitRun? settings (k.text ++ t) = none :=
  limitRun?_eq_none_iff.mpr fun after he => absurd he (Keyword.ne_limitWord_append hk t after)

/-! ## The next piece is a lexeme -/

section NextPiece

variable {settings : Settings} {m : Mode} {b : Bool} {prev : Option Char} {p : Piece} {t r : Text}

theorem partPiece?_eq_none (hm : m.isWithinPath = false) : partPiece? m prev t = none := by
  cases t with
  | nil => rfl
  | cons c cs => rw [partPiece?.eq_def]; simp [hm]

/-- Within a path, what is no part of it is cut as everywhere else. -/
theorem partPiece?_cons_eq_none_iff {c : Char} {cs : Text} (hm : m.isWithinPath = true) :
    partPiece? m prev (c :: cs) = none ↔ prev ≠ some separator ∧ c ≠ separator := by
  rw [partPiece?.eq_def]
  simp only [hm, Bool.true_eq_false, if_false]
  split_ifs with hp ha hc
  · simp [hp]
  · simp [hp]
  · subst hc
    cases cs with
    | nil => simp
    | cons d ds => cases hd : d.isAlpha <;> simp [hd]
  · simp [hp, hc]

theorem partPiece?_cons_eq_none {c : Char} {cs : Text}
    (hp : m.isWithinPath = true → prev ≠ some separator) (hc : c ≠ separator) :
    partPiece? m prev (c :: cs) = none := by
  cases hm : m.isWithinPath with
  | false => exact partPiece?_eq_none hm
  | true => exact (partPiece?_cons_eq_none_iff hm).mpr ⟨hp hm, hc⟩

theorem exists_lexeme_of_partPiece? (h : partPiece? m prev t = some (.ok p)) :
    ∃ r, t = p.text ++ r ∧ Lexeme settings m b prev p r := by
  cases t with
  | nil => cases h
  | cons c cs =>
    rw [partPiece?.eq_def] at h
    dsimp only at h
    split at h
    · cases h
    · next hm =>
      rw [Bool.not_eq_false] at hm
      split at h
      · next hp =>
        split at h
        · next hc =>
          cases h
          obtain ⟨r, hr⟩ := exists_eq_segmentTail_append m.accepts cs
          subst hp
          exact ⟨r, congrArg (c :: ·) hr, .pathPart hm hc (by rw [← hr])⟩
        · cases h
      · next hp =>
        split at h
        · next hc =>
          subst hc
          split at h
          · split at h
            · next hd =>
              cases h
              exact ⟨_, rfl, .pathSeparator hm hp hd⟩
            · cases h
          · cases h
        · cases h

theorem nextPiece_eq_front (h : partPiece? m prev t = none) :
    nextPiece settings ⟨m, b, prev, t⟩ = (nextRun settings m b prev t).front := by
  simp only [nextPiece, h]

theorem nextRun_eq_clauseRun (hi : m ≠ .initial) (hd : m ≠ .done) (ht : t ≠ []) :
    nextRun settings m b prev t = clauseRun settings m b prev t := by
  rw [nextRun, if_neg ht, if_neg hi, if_neg hd]

theorem Mode.ne_of_accepts {c : Category} (hc : c ≠ .action) (h : m.accepts c = true) :
    m ≠ .initial ∧ m ≠ .done := by
  constructor <;> rintro rfl <;> revert h <;> cases c <;> simp_all [Mode.accepts, Mode.expected]

theorem Keyword.category_ne_action {k : Keyword} (hk : k ∈ Keyword.table) :
    k.kind.category ≠ .action := by
  have h : ∀ k ∈ Keyword.table, k.kind.category ≠ .action := by decide
  exact h k hk

theorem Keyword.category_ne_first {k : Keyword} (hk : k ∈ Keyword.table) :
    k.kind.category ≠ .first := by
  have h : ∀ k ∈ Keyword.table, k.kind.category ≠ .first := by decide
  exact h k hk

theorem Keyword.isBulkAction_eq_false {k : Keyword} (hk : k ∈ Keyword.table) :
    Scan.isBulkAction k.kind = false := by
  have h : ∀ k ∈ Keyword.table, Scan.isBulkAction k.kind = false := by decide
  exact h k hk

theorem clauseRun_of_noLimit (hl : NoLimit settings m t) :
    clauseRun settings m b prev t =
      match longestKeyword? m.accepts t with
      | some k =>
        if k.kind = .ordering ∧ b = true then .stop (.orderedBulk 0) else .cut [⟨k.kind, k.text⟩]
      | none => plainRun settings m prev t := by
  have h : (if m.accepts .first = true then limitRun? settings t else none) = none := by
    split
    · next ha => exact hl ha
    · rfl
  rw [clauseRun]
  split
  · next run hr => cases h.symm.trans hr
  · rfl

theorem nextRun_keyword (a : Action) (hr : atBoundary r = true) (b : Bool) (prev : Option Char) :
    nextRun settings .initial b prev (a.keyword ++ r) = .cut [actionPiece a a.keyword] := by
  obtain ⟨d, ds, he, -⟩ := a.exists_keyword_eq_cons
  have ha : leadingAction? (a.keyword ++ r) = some a :=
    leadingAction?_eq_some_iff.mpr (leads_append_iff.mpr hr)
  rw [nextRun, if_neg (by simp [he]), if_pos rfl, actionRun, ha]

theorem nextRun_of_limitRun? {run : Run} (ha : m.accepts .first = true)
    (hr : limitRun? settings t = some run) : nextRun settings m b prev t = run := by
  have ht : t ≠ [] := by
    rintro rfl
    cases hr
  obtain ⟨hi, hd⟩ := Mode.ne_of_accepts (by decide) ha
  rw [nextRun_eq_clauseRun hi hd ht, clauseRun, if_pos ha, hr]

theorem Lexeme.nextPiece_eq (h : Lexeme settings m b prev p r) :
    nextPiece settings ⟨m, b, prev, p.text ++ r⟩ = .ok p := by
  cases h with
  | finish h =>
    rw [nextPiece_eq_front rfl]
    simp [nextRun, h, Run.cut, Run.front]
  | @leading a _ _ _ h =>
    rw [nextPiece_eq_front (partPiece?_eq_none rfl), nextRun_keyword a h]
    rfl
  | @capitalized a _ _ _ h =>
    obtain ⟨c, cs, he, hc⟩ := a.exists_capitalized_eq_cons
    have hl : leadingAction? (a.capitalized ++ r) = none := by
      rw [he]
      exact leadingAction?_cons_eq_none _ (isLower_eq_false_of_isUpper hc)
    have hs : splitAtAction (a.capitalized ++ r) = .ok ([], a) :=
      splitAtAction_eq_ok_nil_iff.mpr (capitalizedAction?_eq_some_iff.mpr (leads_append_iff.mpr h))
    rw [nextPiece_eq_front (partPiece?_eq_none rfl), nextRun, if_neg (by simp [he]), if_pos rfl,
      actionRun, hl, hs]
    rfl
  | @preamble u a _ _ _ hu hl h =>
    rw [nextPiece_eq_front (partPiece?_eq_none rfl), nextRun, if_neg (by simp [hu]), if_pos rfl,
      actionRun, hl, h]
    cases u with
    | nil => exact absurd rfl hu
    | cons c cs => rfl
  | @limit _ _ _ n digits _ ha hd ht hn =>
    have hw : m.isWithinPath = false := by revert ha; cases m <;> decide
    have hr : limitRun? settings (limitWord ++ digits ++ r) =
        some (.cut [⟨.first n, limitWord ++ digits⟩]) := by
      rw [limitRun?, List.append_assoc, List.isPrefixOf?_eq_some_iff_append_eq.mpr rfl]
      simp only [ht, if_pos hd, hn]
    rw [nextPiece_eq_front (partPiece?_eq_none hw), nextRun_of_limitRun? ha hr]
    rfl
  | @keyword _ _ _ k _ hp h ho =>
    obtain ⟨hk, ha, -, -⟩ := longestKeyword?_eq_some_iff.mp h
    have hm := Mode.ne_of_accepts (Keyword.category_ne_action hk) ha
    obtain ⟨c, cs, he, hc⟩ := Keyword.exists_cons hk
    have hne : c ≠ separator := by rintro rfl; simp [separator, Char.isUpper] at hc
    have hw : partPiece? m prev (k.text ++ r) = none := by
      rw [he]; exact partPiece?_cons_eq_none hp hne
    rw [nextPiece_eq_front hw, nextRun_eq_clauseRun hm.1 hm.2 (by simp [he]),
      clauseRun_of_noLimit fun _ => limitRun?_keyword hk r, h]
    simp only [if_neg ho]
    rfl
  | @pathStart _ within _ _ c cs _ ha hw hs hl hk ht =>
    have hm := Mode.ne_of_accepts (by decide) ha
    have hp : m.isWithinPath = false := by revert ha; cases m <;> decide
    rw [nextPiece_eq_front (partPiece?_eq_none hp), nextRun_eq_clauseRun hm.1 hm.2 (by simp),
      clauseRun_of_noLimit hl, hk, List.cons_append]
    simp only [plainRun, ha, hs, Bool.and_self, if_true, pathRun, hw, Run.front, fst_pathTail, ht]
  | @pathSeparator _ _ _ d _ hm hp hd =>
    simp [nextPiece, partPiece?.eq_def, hm, hp, hd]
  | @pathPart _ _ c cs _ hm hc ht =>
    simp [nextPiece, partPiece?.eq_def, hm, hc, ht]
  | @itemSeparator _ _ d r hs hd =>
    have hk : longestKeyword? Mode.directed.accepts (separator :: d :: r) = none :=
      longestKeyword?_cons_eq_none _ (by decide)
    rw [nextPiece_eq_front (partPiece?_eq_none rfl), nextRun_eq_clauseRun (by decide) (by decide)
      (by simp), clauseRun_of_noLimit (fun ha => absurd ha (by decide)), List.singleton_append, hk]
    simp [plainRun, startsPath, separatorRun, hs, hd, Run.front, Run.cut, separator]

theorem exists_lexeme_of_actionRun (h : (actionRun t).front = .ok p) :
    ∃ r, t = p.text ++ r ∧ Lexeme settings .initial b prev p r := by
  rw [actionRun] at h
  split at h
  · next a ha =>
    cases h
    obtain ⟨r, rfl, hb⟩ := leadingAction?_eq_some_iff.mp ha
    exact ⟨r, rfl, .leading hb⟩
  · next hl =>
    split at h
    · next a ha =>
      cases h
      obtain ⟨r, rfl, hb⟩ := capitalizedAction?_eq_some_iff.mp (splitAtAction_eq_ok_nil_iff.mp ha)
      exact ⟨r, rfl, .capitalized hb⟩
    · next u a hu ha =>
      cases h
      obtain ⟨r, rfl, -⟩ := exists_of_splitAtAction ha
      exact ⟨r, rfl, .preamble hu hl ha⟩
    · cases h

theorem exists_lexeme_of_limitRun? {run : Run} (ha : m.accepts .first = true)
    (hr : limitRun? settings t = some run) (h : run.front = .ok p) :
    ∃ r, t = p.text ++ r ∧ Lexeme settings m b prev p r := by
  rw [limitRun?] at hr
  split at hr
  · cases hr
  · next after he =>
    obtain rfl := List.isPrefixOf?_eq_some_iff_append_eq.mp he
    dsimp only at hr
    split at hr
    · next hd =>
      split at hr
      · next n hn =>
        cases hr
        cases h
        refine ⟨after.dropWhile Char.isDigit, ?_, .limit ha hd ?_ hn⟩
        · rw [List.append_assoc, List.takeWhile_append_dropWhile]
        · rw [List.takeWhile_append_dropWhile]
      · cases hr
        cases h
    · split at hr
      · cases hr
        cases h
      · split at hr
        · cases hr
          cases h
        · cases hr

theorem exists_lexeme_of_plainRun (hl : NoLimit settings m t)
    (hk : longestKeyword? m.accepts t = none) (h : (plainRun settings m prev t).front = .ok p) :
    ∃ r, t = p.text ++ r ∧ Lexeme settings m b prev p r := by
  cases t with
  | nil => cases h
  | cons c cs =>
    rw [plainRun] at h
    split at h
    · next hc =>
      rw [Bool.and_eq_true] at hc
      cases hw : m.pathMode? with
      | none =>
        simp only [pathRun, hw] at h
        cases h
      | some within =>
        simp only [pathRun, hw, fst_pathTail] at h
        cases h
        obtain ⟨r, hr⟩ := exists_eq_segmentTail_append within.accepts cs
        refine ⟨r, congrArg (c :: ·) hr, .pathStart hc.1 hw hc.2 ?_ ?_ (by rw [← hr])⟩
        · rwa [List.cons_append, ← hr]
        · rwa [List.cons_append, ← hr]
    · split at h
      · next hc =>
        split at h
        · next hm =>
          subst hc hm
          unfold separatorRun at h
          split at h
          · cases h
          · next hs =>
            split at h
            · split at h
              · next d ds hd =>
                cases h
                exact ⟨_, rfl, .itemSeparator (by simpa using hs) hd⟩
              · cases h
            · cases h
        · split at h <;> cases h
      · cases h

/-- The next piece is a lexeme at the start of the text. -/
theorem exists_lexeme_of_nextPiece (h : nextPiece settings ⟨m, b, prev, t⟩ = .ok p) :
    ∃ r, t = p.text ++ r ∧ Lexeme settings m b prev p r := by
  cases hp : partPiece? m prev t with
  | some result =>
    refine exists_lexeme_of_partPiece? (hp.trans (congrArg some ?_))
    rwa [nextPiece, hp] at h
  | none =>
    rw [nextPiece_eq_front hp, nextRun] at h
    split at h
    · next ht =>
      subst ht
      split at h
      · next hf =>
        cases h
        exact ⟨[], rfl, .finish hf⟩
      · cases h
    · split at h
      · next hm =>
        subst hm
        exact exists_lexeme_of_actionRun h
      · split at h
        · cases h
        · rw [clauseRun] at h
          split at h
          · next run hr =>
            split at hr
            · next ha => exact exists_lexeme_of_limitRun? ha hr h
            · cases hr
          · next hn =>
            have hl : NoLimit settings m t := fun ha => by rwa [if_pos ha] at hn
            split at h
            · next k hk =>
              split at h
              · cases h
              · next ho =>
                cases h
                obtain ⟨hmem, -, ⟨r, rfl, -⟩, -⟩ := longestKeyword?_eq_some_iff.mp hk
                obtain ⟨c, cs, he, -⟩ := Keyword.exists_cons hmem
                refine ⟨r, rfl, .keyword (fun hm hs => ?_) hk ho⟩
                rw [he, List.cons_append] at hp
                exact ((partPiece?_cons_eq_none_iff hm).mp hp).1 hs
            · next hk => exact exists_lexeme_of_plainRun hl hk h

theorem Lexeme.of_pathPart (h : Lexeme settings m b prev p r) (hp : p.kind = .pathPart) :
    m.isWithinPath = true ∧ prev = some separator ∧
      ∃ c cs, p.text = c :: cs ∧ c.isAlpha = true ∧ segmentTail m.accepts (cs ++ r) = cs := by
  cases h with
  | pathPart hm hc ht => exact ⟨hm, rfl, _, _, rfl, hc, ht⟩
  | keyword _ hk => exact absurd hp (kind_ne_of_longestKeyword? hk rfl)
  | _ => cases hp

theorem Lexeme.of_separator (h : Lexeme settings m b prev p r) (hp : p.kind = .separator) :
    p.text = [separator] ∧ (∃ d ds, r = d :: ds ∧ d.isAlpha = true) ∧
      (m.isWithinPath = true ∧ prev ≠ some separator ∨ m = .directed) := by
  cases h with
  | pathSeparator hm hs hd => exact ⟨rfl, ⟨_, _, rfl, hd⟩, .inl ⟨hm, hs⟩⟩
  | itemSeparator _ hd => exact ⟨rfl, ⟨_, _, rfl, hd⟩, .inr rfl⟩
  | keyword _ hk => exact absurd hp (kind_ne_of_longestKeyword? hk rfl)
  | _ => cases hp

theorem Lexeme.of_preamble (h : Lexeme settings m b prev p r) (hp : p.kind = .preamble) :
    ∃ a, m = .initial ∧ splitAtAction (p.text ++ r) = .ok (p.text, a) := by
  cases h with
  | preamble _ _ h => exact ⟨_, rfl, h⟩
  | keyword _ hk => exact absurd hp (kind_ne_of_longestKeyword? hk rfl)
  | _ => cases hp

theorem Lexeme.of_finish (h : Lexeme settings m b prev p r) (hp : p.kind = .finish) :
    p.text = [] ∧ r = [] := by
  cases h with
  | finish => exact ⟨rfl, rfl⟩
  | keyword _ hk => exact absurd hp (kind_ne_of_longestKeyword? hk rfl)
  | _ => cases hp

theorem nextPiece_eq_ok_iff : nextPiece settings ⟨m, b, prev, t⟩ = .ok p ↔
    ∃ r, t = p.text ++ r ∧ Lexeme settings m b prev p r := by
  refine ⟨exists_lexeme_of_nextPiece, ?_⟩
  rintro ⟨r, rfl, h⟩
  exact h.nextPiece_eq

end NextPiece

/-! ## What a lexeme leaves behind -/

section Behind

variable {settings : Settings} {m : Mode} {b : Bool} {prev : Option Char} {p : Piece} {r : Text}

theorem ne_separator_of_isAlphanum {d : Char} (h : d.isAlphanum = true) : d ≠ separator := by
  rintro rfl
  exact absurd h (by decide)

theorem isAlphanum_of_isAlpha {d : Char} (h : d.isAlpha = true) : d.isAlphanum = true := by
  rw [Char.isAlphanum, h, Bool.true_or]

theorem isAlpha_of_startsPath {c : Char} (h : startsPath prev c = true) : c.isAlpha = true := by
  simp only [startsPath, Bool.or_eq_true, Bool.and_eq_true] at h
  rcases h with h | h
  · simp [Char.isAlpha, h]
  · exact h.1

theorem getLast?_or_ne_separator {accepts : Category → Bool} {d : Char} {ds : Text}
    (hd : d.isAlpha = true) (ht : segmentTail accepts (ds ++ r) = ds) :
    (d :: ds).getLast?.or prev ≠ some separator := by
  have h : ∀ e ∈ d :: ds, e ≠ separator := by
    rw [List.forall_mem_cons]
    refine ⟨ne_separator_of_isAlphanum (isAlphanum_of_isAlpha hd), fun e he => ?_⟩
    rw [← ht] at he
    exact ne_separator_of_isAlphanum (isAlphanum_of_mem_segmentTail e he)
  rw [List.getLast?_eq_some_getLast (List.cons_ne_nil d ds), Option.some_or]
  exact fun he => h _ (List.getLast_mem _) (Option.some.inj he)

theorem getLast?_or_ne_of_mem_words {word : Text} (h : word ∈ words) (prev : Option Char) :
    word.getLast?.or prev ≠ some separator := by
  have key : ∀ word ∈ words, word.getLast?.any (· != separator) = true := by decide +kernel
  have hw := key word h
  cases hl : word.getLast? with
  | none => simp [hl] at hw
  | some d =>
    rw [hl] at hw
    simpa using hw

theorem getLast?_or_ne_of_isDigit {digits : Text} (u : Text) (hd : digits ≠ [])
    (h : ∀ c ∈ digits, c.isDigit = true) (prev : Option Char) :
    (u ++ digits).getLast?.or prev ≠ some separator := by
  rw [List.getLast?_append, List.getLast?_eq_some_getLast hd, Option.some_or, Option.some_or]
  intro he
  have hl := h _ (List.getLast_mem hd)
  rw [Option.some.inj he] at hl
  cases hl

/-- Only separators and preambles end with a separator. -/
theorem Lexeme.previous_ne_separator (h : Lexeme settings m b prev p r) (hs : p.kind ≠ .separator)
    (hp : p.kind ≠ .preamble) (hf : p.kind ≠ .finish) :
    p.text.getLast?.or prev ≠ some separator := by
  cases h with
  | finish => exact absurd rfl hf
  | preamble => exact absurd rfl hp
  | pathSeparator | itemSeparator => exact absurd rfl hs
  | @leading a => exact getLast?_or_ne_of_mem_words a.keyword_mem_words _
  | @capitalized a => exact getLast?_or_ne_of_mem_words a.capitalized_mem_words _
  | limit _ hd ht => exact getLast?_or_ne_of_isDigit _ hd (takeWhile_append_eq_iff.mp ht).1 _
  | keyword _ hk =>
    exact getLast?_or_ne_of_mem_words (Keyword.mem_words (longestKeyword?_eq_some_iff.mp hk).1) _
  | pathStart _ _ hc _ _ ht => exact getLast?_or_ne_separator (isAlpha_of_startsPath hc) ht
  | pathPart _ hc ht => exact getLast?_or_ne_separator hc ht

/-- A camel-case word ends with a lexeme, limits, preambles and separators apart. -/
theorem Lexeme.atBoundary (h : Lexeme settings m b prev p r) (hs : p.kind ≠ .separator)
    (hp : p.kind ≠ .preamble) (hf : p.kind.category ≠ .first) : atBoundary r = true := by
  cases h with
  | finish => rfl
  | preamble => exact absurd rfl hp
  | limit => exact absurd rfl hf
  | pathSeparator | itemSeparator => exact absurd rfl hs
  | leading h | capitalized h => exact h
  | keyword _ hk =>
    obtain ⟨-, -, hl, -⟩ := longestKeyword?_eq_some_iff.mp hk
    exact leads_append_iff.mp hl
  | pathStart _ _ _ _ _ ht | pathPart _ _ ht =>
    exact atBoundary_of_not_segmentContinues (segmentTail_append_eq_iff.mp ht).1

end Behind

end DerivedQuery
