import DerivedQuery.Proofs.Beginning
import DerivedQuery.Proofs.Completion
import DerivedQuery.Proofs.Decoding

/-!
# Limits

The word `First` opens a limit, asks in vain for one, or begins the name of a property. Behind an
action, what follows the word decides which.

* `IsLimit`: digits that stand for a number of records; `limitOf?_eq_some_iff`: they are read so;
* `EndsProjection`: words in front of which a limit needs its digits;
* `tokens_transcriptFor`: a limit is handed out as soon as it is cut;
* `Cuts.category_ne_first`, `Cuts.parse_ne_invalidCount`: elsewhere there is no limit;
* `exists_projection_of_pathStart`: a path behind the action is the projection;
* **`limit_behind_action`**: all that the word comes to.
-/

namespace DerivedQuery

/-! ## Digits -/

/-- The digits stand for a number of records: one of 32 bits, written without leading zeros, and
zero only if the settings allow it. -/
structure IsLimit (settings : Settings) (digits : Text) : Prop where
  lt : Nat.ofDigitChars 10 digits 0 < 2 ^ 32
  eq_zero : digits.head? = some '0' → digits = ['0']
  pos : 0 < Nat.ofDigitChars 10 digits 0 ∨ settings.allowZeroCount = true

/-- The words that end a projection, so that a limit needs its digits before them. -/
def EndsProjection (t : Text) : Prop :=
  Leads "By".toList t ∨ Leads "OrderBy".toList t ∨ Leads "Distinct".toList t

instance (t : Text) : Decidable (EndsProjection t) := by unfold EndsProjection; infer_instance

section Digits

variable {settings : Settings} {digits t : Text} {n : Nat}

/-- Digits begin with a zero and go on, or zero is all that they are if they begin with it. -/
theorem leadingZero_iff : (1 < digits.length ∧ digits.head? = some '0') ↔
    ¬ (digits.head? = some '0' → digits = ['0']) := by
  cases digits with
  | nil => simp
  | cons d ds => cases ds <;> simp

/-- **The number of a limit** is the one that its digits stand for. -/
theorem limitOf?_eq_some_iff :
    limitOf? settings digits = some n ↔
      IsLimit settings digits ∧ n = Nat.ofDigitChars 10 digits 0 := by
  have hsize : UInt32.size = 2 ^ 32 := rfl
  rw [limitOf?]
  split_ifs with hz hlt hzero
  · exact iff_of_false not_false fun h => leadingZero_iff.mp hz h.1.eq_zero
  · exact iff_of_false not_false fun h => absurd h.1.lt (by rw [← hsize]; exact Nat.not_lt.mpr hlt)
  · refine iff_of_false not_false fun h => ?_
    rcases h.1.pos with hpos | hallow
    · exact absurd hzero.1 hpos.ne'
    · cases hallow.symm.trans hzero.2
  · have hlimit : IsLimit settings digits := by
      refine ⟨by rw [← hsize]; exact Nat.not_le.mp hlt, not_not.mp (mt leadingZero_iff.mpr hz), ?_⟩
      by_contra hpos
      push Not at hpos
      exact hzero ⟨Nat.le_zero.mp hpos.1, Bool.not_eq_true _ ▸ hpos.2⟩
    rw [Option.some.injEq, and_iff_right hlimit, eq_comm]

theorem limitOf?_eq_none_iff : limitOf? settings digits = none ↔ ¬ IsLimit settings digits := by
  rw [Option.eq_none_iff_forall_ne_some]
  simp only [ne_eq, limitOf?_eq_some_iff, not_and]
  exact ⟨fun h hl => h _ hl rfl, fun h _ hl => absurd hl h⟩

instance : Decidable (IsLimit settings digits) :=
  decidable_of_iff (limitOf? settings digits ≠ none) (by rw [ne_eq, limitOf?_eq_none_iff, not_not])

theorem isSome_longestKeyword?_endsLimit :
    (longestKeyword? endsLimit t).isSome ↔ EndsProjection t := by
  have hwords : ∀ k ∈ Keyword.table, endsLimit k.kind.category = true →
      k.text = "By".toList ∨ k.text = "OrderBy".toList ∨ k.text = "Distinct".toList := by decide
  rw [← not_iff_not, Option.not_isSome_iff_eq_none, longestKeyword?_eq_none_iff]
  constructor
  · rintro hn (h | h | h)
    · exact hn _ (Keyword.mem_table .criteria rfl) rfl h
    · exact hn _ (Keyword.mem_table .ordering rfl) rfl h
    · exact hn _ (Keyword.mem_table .distinct rfl) rfl h
  · intro hn k hk ha hl
    rcases hwords k hk ha with h | h | h <;> rw [h] at hl
    · exact hn (.inl hl)
    · exact hn (.inr (.inl hl))
    · exact hn (.inr (.inr hl))

end Digits

/-! ## The word that opens a limit -/

section Word

variable {settings : Settings} {r : Text}

theorem limitRun?_of_isLimit (hd : r.takeWhile Char.isDigit ≠ [])
    (h : IsLimit settings (r.takeWhile Char.isDigit)) :
    limitRun? settings (limitWord ++ r) =
      some (.cut [⟨.first (Nat.ofDigitChars 10 (r.takeWhile Char.isDigit) 0),
        limitWord ++ r.takeWhile Char.isDigit⟩]) := by
  rw [limitRun?, List.isPrefixOf?_eq_some_iff_append_eq.mpr rfl]
  simp only [if_pos hd, limitOf?_eq_some_iff.mpr ⟨h, rfl⟩]

theorem limitRun?_of_not_isLimit (hd : r.takeWhile Char.isDigit ≠ [])
    (h : ¬ IsLimit settings (r.takeWhile Char.isDigit)) :
    limitRun? settings (limitWord ++ r) =
      some (.stop (.invalidCount (byteLength limitWord) (r.takeWhile Char.isDigit))) := by
  rw [limitRun?, List.isPrefixOf?_eq_some_iff_append_eq.mpr rfl]
  simp only [if_pos hd, limitOf?_eq_none_iff.mpr h]

theorem limitRun?_limitWord : limitRun? settings (limitWord ++ []) =
    some (.stop (.unterminated (byteLength limitWord) [.digits])) := rfl

theorem limitRun?_of_endsProjection (hd : r.takeWhile Char.isDigit = []) (h : EndsProjection r) :
    limitRun? settings (limitWord ++ r) =
      some (.stop (.invalidCount (byteLength limitWord) [])) := by
  have hne : r ≠ [] := by
    rintro rfl
    revert h
    unfold EndsProjection
    decide
  rw [limitRun?, List.isPrefixOf?_eq_some_iff_append_eq.mpr rfl]
  simp only [hd, hne, isSome_longestKeyword?_endsLimit.mpr h, ne_eq, not_true_eq_false, if_false,
    if_true]

theorem limitRun?_eq_none (hd : r.takeWhile Char.isDigit = []) (hne : r ≠ [])
    (h : ¬ EndsProjection r) : limitRun? settings (limitWord ++ r) = none := by
  rw [limitRun?_eq_none_iff]
  intro after he
  obtain rfl := List.append_cancel_left he
  have hn := mt isSome_longestKeyword?_endsLimit.mp h
  exact ⟨hd, hne, Option.not_isSome_iff_eq_none.mp hn⟩

theorem longestKeyword?_limitWord (accepts : Category → Bool) (r : Text) :
    longestKeyword? accepts (limitWord ++ r) = none := by
  rw [longestKeyword?_eq_none_iff]
  rintro k hk - ⟨t, ht, -⟩
  exact Keyword.ne_limitWord_append hk t r ht.symm

end Word

/-! ## Limits that are handed out -/

section HandedOut

variable {settings : Settings} {c c' : Cursor} {p : Piece}

theorem tokens_transcriptFor (h : Cut settings c p c')
    (hr : nextRun settings c.mode c.isBulk c.previous c.rest = .cut [p]) (fuel n : Nat) :
    (Scan.transcriptFor (fuel + 1) (c.scan settings n [])).tokens = ⟨p.kind, p.text, n⟩ ::
      (Scan.transcriptFor fuel (c'.scan settings (n + byteLength p.text) [])).tokens := by
  have hm : c.mode ≠ .done := fun hd => stuck_of_done hd p c' h
  obtain ⟨hstep, -⟩ := step_scan_of_cuts (n := n) (q := []) hr h.cuts
  have hnext := next_scan_of_step hm (congrArg Prod.snd hstep)
  rw [hstep] at hnext
  rw [Scan.transcriptFor, hnext]
  simp [Scan.pop, Cursor.scan, Run.cut]

end HandedOut

/-! ## Names without a limit -/

section Without

variable {settings : Settings} {m m' : Mode} {k : Kind} {c c' : Cursor} {ps qs : List Piece}
  {name : Text} {n : Nat} {ds : Text}

theorem Mode.accepts_first_eq_false (hi : m ≠ .initial) (h : m.next? k = some m') :
    m'.accepts .first = false := by
  cases k with
  | preamble | action => exact absurd (Option.ite_none_right_eq_some.mp h).1 hi
  | pathStart | pathPart | separator | negation | ignoreCase =>
    revert h
    cases m <;> intro h <;> cases h <;> rfl
  | _ =>
    obtain ⟨-, ⟨⟩⟩ := Option.ite_none_right_eq_some.mp h
    rfl

theorem Mode.category_ne_first (hf : m.accepts .first = false) (h : m.next? k = some m') :
    k.category ≠ .first := by
  cases k with
  | first =>
    rw [(Option.ite_none_right_eq_some.mp h).1] at hf
    cases hf
  | _ => nofun

/-- **Where no limit may follow**, none is cut any more. -/
theorem Cuts.category_ne_first (h : Cuts settings c ps c') (hi : c.mode ≠ .initial)
    (hf : c.mode.accepts .first = false) :
    (∀ p ∈ ps, p.kind.category ≠ .first) ∧ c'.mode.accepts .first = false := by
  induction h with
  | nil => exact ⟨fun _ hp => absurd hp List.not_mem_nil, hf⟩
  | cons hcut _ ih =>
    have hn := hcut.next?
    obtain ⟨hps, hf'⟩ := ih (hcut.mode_ne_initial hi) (Mode.accepts_first_eq_false hi hn)
    exact ⟨List.forall_mem_cons.mpr ⟨Mode.category_ne_first hf hn, hps⟩, hf'⟩

theorem Cuts.transcript_category_ne_first (h : Cuts settings (.ofName name) ps c)
    (hps : ∀ p ∈ ps, p.kind.category ≠ .first) (hi : c.mode ≠ .initial)
    (hf : c.mode.accepts .first = false) :
    ∀ t ∈ (Scan.transcript settings name).tokens, t.kind.category ≠ .first := by
  have key {qs : List Piece} {c' : Cursor} (hcuts : Cuts settings (.ofName name) qs c')
      (hs : Stuck settings c') : ∀ t ∈ place 0 qs, t.kind.category ≠ .first := by
    obtain ⟨rs, rfl, hrs⟩ := h.of_front hcuts hs
    intro t ht
    obtain ⟨p, hp, hk, -⟩ := exists_mem_of_place ht
    rw [← hk]
    rcases List.mem_append.mp hp with hp | hp
    · exact hps p hp
    · exact (hrs.category_ne_first hi hf).1 p hp
  obtain ⟨qs, c', hcuts, ⟨hdone, htr⟩ | ⟨e, -, he, -, hle⟩⟩ :=
    handsOut_transcript settings name
  · rw [htr]
    exact key hcuts (stuck_of_done hdone)
  · exact fun t ht => key hcuts (stuck_of_error he) t (hle.subset ht)

theorem Cuts.parse_ne_invalidCount (h : Cuts settings (.ofName name) ps c) (hi : c.mode ≠ .initial)
    (hf : c.mode.accepts .first = false) (n : Nat) (ds : Text) :
    parse settings name ≠ .error (.invalidCount n ds) := by
  intro hp
  obtain ⟨qs, c', e, hqs, hdone, he, hd⟩ := h.tokenize_error_iff.mp (parse_eq_error_iff.mp hp)
  have hfault := fault_of_nextPiece (hqs.mode_ne_initial hi) hdone he
  have hf' := (hqs.category_ne_first hi hf).2
  cases hfault with
  | count ha => exact Bool.noConfusion (hf'.symm.trans ha)
  | _ => cases hd

end Without

/-! ## Paths behind the action -/

section Path

variable {settings : Settings} {c c' : Cursor} {ps : List Piece} {name s : Text} {q : Query}
  {a : Action} {n : Nat}

theorem Cuts.kind_of_mem_scope (h : Cuts settings c ps c') (hm : c.mode = .projected) (n : Nat) :
    ∀ t ∈ (place n ps).takeWhile (fun t => !t.kind.endsScope),
      t.kind = .separator ∨ t.kind = .pathPart := by
  induction h generalizing n with
  | nil => exact fun _ ht => absurd ht List.not_mem_nil
  | @cons c p c₁ ps c' hcut _ ih =>
    have hn := hcut.next?
    rw [hm] at hn
    cases hk : p.kind with
    | separator | pathPart =>
      rw [hk] at hn
      rw [place_cons, List.takeWhile_cons_of_pos (by rw [hk]; rfl)]
      refine List.forall_mem_cons.mpr ⟨by simp [hk], ih (Option.some.inj hn).symm _⟩
    | criteria | ordering | finish =>
      rw [place_cons, List.takeWhile_cons_of_neg (by rw [hk]; nofun)]
      exact fun _ ht => absurd ht List.not_mem_nil
    | _ =>
      rw [hk] at hn
      cases hn

theorem projection_of_queryOf? {ts : List Token} (h : queryOf? ts = some q) :
    q.projection = projectionOf (scopeOf ts) := by
  simp only [queryOf?, Option.bind_eq_bind, Option.bind_eq_some_iff, Option.pure_def,
    Option.some.injEq] at h
  obtain ⟨-, -, -, -, -, -, rfl⟩ := h
  rfl

theorem exists_projectionOf_path {ts : List Token} (hs : s ≠ [])
    (hk : ∀ t ∈ ts, t.kind = .separator ∨ t.kind = .pathPart)
    (ht : ∀ t ∈ ts, t.kind.category = .property → t.text ≠ []) :
    ∃ p ss, projectionOf (⟨.pathStart, s, n⟩ :: ts) = some (.ofProperty p) ∧
      p.segments = uncapitalize s :: ss := by
  have hshape : (Token.mk .pathStart s n :: ts).findSome? (fun t => t.kind.shape?) = none := by
    rw [List.findSome?_eq_none_iff, List.forall_mem_cons]
    refine ⟨rfl, fun t ht => ?_⟩
    rcases hk t ht with h | h <;> rw [h] <;> rfl
  have hsegments : ∀ u ∈ uncapitalize s :: segmentsOf ts, u ≠ [] := by
    rw [List.forall_mem_cons]
    refine ⟨Draft.uncapitalize_ne_nil hs, fun u hu => ?_⟩
    obtain ⟨t, hmem, rfl⟩ := List.mem_map.mp hu
    obtain ⟨hmem, hprop⟩ := List.mem_filter.mp hmem
    exact Draft.uncapitalize_ne_nil (ht t hmem (of_decide_eq_true hprop))
  refine ⟨⟨uncapitalize s :: segmentsOf ts, List.cons_ne_nil _ _, hsegments⟩, segmentsOf ts, ?_,
    rfl⟩
  have hpath := Path.ofSegments?_eq_some_iff.mpr
    (rfl : (Path.mk _ (List.cons_ne_nil _ _) hsegments).segments = _)
  rw [projectionOf, hshape, segmentsOf_cons_of_property rfl, hpath]
  rfl

/-- **A path behind the action** is the projection. -/
theorem exists_projection_of_pathStart
    (h : Cuts settings (.ofName name) [actionPiece a a.keyword, ⟨.pathStart, s⟩] c)
    (hm : c.mode = .projected) (hp : parse settings name = .ok q) :
    ∃ p ss, q.projection = some (.ofProperty p) ∧ p.segments = uncapitalize s :: ss := by
  obtain ⟨ts, ht, hq⟩ := parse_eq_ok_iff_queryOf?.mp hp
  obtain ⟨ps, c', hps, -, rfl⟩ := h.tokenize_ok_iff.mp ht
  have htexts := (h.append hps).text_ne_nil_of_property 0
  simp only [List.cons_append, List.nil_append, place_cons, List.forall_mem_cons] at htexts hq
  obtain ⟨-, hs, hrest⟩ := htexts
  have hkinds := hps.kind_of_mem_scope hm
    (0 + byteLength (actionPiece a a.keyword).text + byteLength s)
  rw [projection_of_queryOf? hq]
  exact exists_projectionOf_path (hs rfl) hkinds
    fun t ht => hrest t ((List.takeWhile_sublist _).subset ht)

end Path

/-! ## Behind an action -/

section Action

variable {settings : Settings} {a : Action} {name r digits : Text} {d : Diagnostic}

theorem accepts_first_afterAction (ha : a.isBulk = false) :
    (Mode.afterAction a).accepts .first = true := by
  revert ha
  cases a <;> decide

theorem cuts_limitWord (a : Action) (r : Text) :
    Cuts settings (.ofName (a.keyword ++ (limitWord ++ r))) [actionPiece a a.keyword]
      (.behindAction a (limitWord ++ r)) :=
  (cut_keyword a (r := limitWord ++ r) rfl).cuts

theorem parse_eq_error_of_limitRun? (ha : a.isBulk = false)
    (hr : limitRun? settings (limitWord ++ r) = some (.stop d)) :
    parse settings (a.keyword ++ (limitWord ++ r)) = .error (d.shift (byteLength a.keyword)) := by
  have hfirst := accepts_first_afterAction ha
  have hpath : (Mode.afterAction a).isWithinPath = false := by cases a <;> rfl
  have hstop : nextPiece settings (.behindAction a (limitWord ++ r)) = .error d := by
    rw [Cursor.behindAction, nextPiece_eq_front (partPiece?_eq_none hpath),
      nextRun_of_limitRun? hfirst hr]
    rfl
  rw [parse_eq_error_iff, tokenize_eq_error_iff]
  refine ⟨_, _, d, cuts_limitWord a r, (Mode.ne_of_accepts (by decide) hfirst).2, hstop, ?_⟩
  rw [textOf_cons, textOf_nil, List.append_nil]
  rfl

theorem exists_tokens_of_isLimit (ha : a.isBulk = false) (hd : r.takeWhile Char.isDigit ≠ [])
    (h : IsLimit settings (r.takeWhile Char.isDigit)) :
    ∃ ts, (Scan.transcript settings (a.keyword ++ (limitWord ++ r))).tokens =
      ⟨.action a, a.keyword, 0⟩ ::
        ⟨.first (Nat.ofDigitChars 10 (r.takeWhile Char.isDigit) 0),
          limitWord ++ r.takeWhile Char.isDigit, byteLength a.keyword⟩ :: ts := by
  have hfirst := accepts_first_afterAction ha
  have hlex : Lexeme settings (Mode.afterAction a) a.isBulk a.keyword.getLast?
      ⟨.first (Nat.ofDigitChars 10 (r.takeWhile Char.isDigit) 0),
        limitWord ++ r.takeWhile Char.isDigit⟩ (r.dropWhile Char.isDigit) := by
    refine .limit hfirst hd ?_ (limitOf?_eq_some_iff.mpr ⟨h, rfl⟩)
    rw [List.takeWhile_append_dropWhile]
  have hnext : (Mode.afterAction a).next?
      (.first (Nat.ofDigitChars 10 (r.takeWhile Char.isDigit) 0)) = some .limited := if_pos hfirst
  have hcut := hlex.cut hnext
  rw [List.append_assoc, List.takeWhile_append_dropWhile] at hcut
  have hcut : Cut settings (.behindAction a (limitWord ++ r)) _ _ := hcut
  have haction : Cut settings (.ofName (a.keyword ++ (limitWord ++ r)))
      (actionPiece a a.keyword) (.behindAction a (limitWord ++ r)) := cut_keyword a rfl
  have hname : Scan.ofName settings (a.keyword ++ (limitWord ++ r)) =
      (Cursor.ofName (a.keyword ++ (limitWord ++ r))).scan settings 0 [] := rfl
  rw [Scan.transcript, Scan.callLimit, hname,
    tokens_transcriptFor haction (nextRun_keyword a rfl _ _),
    tokens_transcriptFor hcut (nextRun_of_limitRun? hfirst (limitRun?_of_isLimit hd h)),
    Nat.zero_add]
  exact ⟨_, rfl⟩

/-- The word that opens a limit may begin the name of a property. -/
theorem exists_cuts_pathStart (ha : a.isBulk = false) (hd : r.takeWhile Char.isDigit = [])
    (hne : r ≠ []) (h : ¬ EndsProjection r) :
    ∃ s c, Cuts settings (.ofName (a.keyword ++ (limitWord ++ r)))
      [actionPiece a a.keyword, ⟨.pathStart, limitWord ++ s⟩] c ∧ c.mode = .projected := by
  have hfirst := accepts_first_afterAction ha
  have hmode : (Mode.afterAction a).accepts .property = true ∧
      (Mode.afterAction a).pathMode? = some .projected := by
    revert ha
    cases a <;> decide
  have hnone : limitRun? settings (limitWord ++ r) = none := limitRun?_eq_none hd hne h
  have hkey := longestKeyword?_limitWord (Mode.afterAction a).accepts r
  obtain ⟨t, ht⟩ := exists_eq_segmentTail_append Mode.projected.accepts r
  have htail : segmentTail Mode.projected.accepts ("irst".toList ++ r) =
      "irst".toList ++ segmentTail Mode.projected.accepts r := rfl
  generalize segmentTail Mode.projected.accepts r = s at ht htail
  subst ht
  have hlex : Lexeme settings (Mode.afterAction a) a.isBulk a.keyword.getLast?
      ⟨.pathStart, 'F' :: ("irst".toList ++ s)⟩ t :=
    .pathStart hmode.1 hmode.2 rfl (fun _ => hnone) hkey htail
  exact ⟨s, _, (cuts_limitWord a (s ++ t)).append (hlex.cut hmode.2).cuts, rfl⟩

/-- **The word `First` behind an action** that is not one on many records. If digits stand behind
it, they are the number of a limit, whatever follows; or they are no such number, and the name is
rejected there. Without digits the name is rejected too if it ends there, or if a word follows that
ends a projection. Otherwise there is no limit, nor a diagnostic of one, and the word begins the
name of the property that is the projection. -/
theorem limit_behind_action (ha : a.isBulk = false)
    (hname : name = a.keyword ++ "First".toList ++ r)
    (hdigits : digits = r.takeWhile Char.isDigit) :
    (digits ≠ [] → IsLimit settings digits → ∃ ts, (Scan.transcript settings name).tokens =
        ⟨.action a, a.keyword, 0⟩ ::
          ⟨.first (Nat.ofDigitChars 10 digits 0), "First".toList ++ digits,
            byteLength a.keyword⟩ :: ts) ∧
      (digits ≠ [] → ¬ IsLimit settings digits →
        parse settings name = .error (.invalidCount (byteLength a.keyword + 5) digits)) ∧
      (r = [] → parse settings name = .error (.unterminated (byteLength name) [.digits])) ∧
      (digits = [] → EndsProjection r →
        parse settings name = .error (.invalidCount (byteLength a.keyword + 5) [])) ∧
      (digits = [] → r ≠ [] → ¬ EndsProjection r →
        (∀ t ∈ (Scan.transcript settings name).tokens, t.kind.category ≠ .first) ∧
          (∀ n ds, parse settings name ≠ .error (.invalidCount n ds)) ∧
          ∀ q, parse settings name = .ok q → ∃ p s ss, q.projection = some (.ofProperty p) ∧
            p.segments = ("first".toList ++ s) :: ss) := by
  have hword : name = a.keyword ++ (limitWord ++ r) := hname.trans (List.append_assoc _ _ _)
  subst hword hdigits
  refine ⟨exists_tokens_of_isLimit ha, fun hd hl => ?_, ?_, fun hd hw => ?_, fun hd hne hw => ?_⟩
  · exact parse_eq_error_of_limitRun? ha (limitRun?_of_not_isLimit hd hl)
  · rintro rfl
    rw [byteLength_append]
    exact parse_eq_error_of_limitRun? ha limitRun?_limitWord
  · exact parse_eq_error_of_limitRun? ha (limitRun?_of_endsProjection hd hw)
  · obtain ⟨s, c, hcuts, hm⟩ := exists_cuts_pathStart ha hd hne hw
    have hinitial : c.mode ≠ .initial := by rw [hm]; nofun
    have hfirst : c.mode.accepts .first = false := by rw [hm]; rfl
    refine ⟨hcuts.transcript_category_ne_first ?_ hinitial hfirst,
      hcuts.parse_ne_invalidCount hinitial hfirst, fun q hq => ?_⟩
    · simp [actionPiece, Kind.category]
    · obtain ⟨p, ss, hproj, hp⟩ := exists_projection_of_pathStart hcuts hm hq
      exact ⟨p, s, ss, hproj, hp⟩

theorem limit_behind_action_find :
    Action.find.isBulk = false ∧
      (∃ ts, (Scan.transcript {} "findFirst10Home_".toList).tokens =
        ⟨.action .find, "find".toList, 0⟩ :: ⟨.first 10, "First10".toList, 4⟩ :: ts) ∧
      parse {} "findFirst007Home".toList = .error (.invalidCount 9 "007".toList) ∧
      parse {} "findFirst".toList = .error (.unterminated 9 [.digits]) ∧
      parse {} "findFirstByHome".toList = .error (.invalidCount 9 []) ∧
      ∃ q, parse {} "findFirstHomeByAge".toList = .ok q ∧ ∃ p s ss,
        q.projection = some (.ofProperty p) ∧ p.segments = ("first".toList ++ s) :: ss := by
  have hlimit (r : Text) := @limit_behind_action {} .find _ r _ (by decide) rfl rfl
  have hq : parse {} "findFirstHomeByAge".toList = .ok
      { action := .find
        projection := some (.ofProperty ⟨["firstHome".toList], by decide, by decide⟩)
        criteria := [⟨none, { property := ⟨["age".toList], by decide, by decide⟩ }⟩] } := by
    decide +kernel
  obtain ⟨hten, -⟩ := hlimit "10Home_".toList
  obtain ⟨-, hzeros, -⟩ := hlimit "007Home".toList
  obtain ⟨-, -, hend, -⟩ := hlimit []
  obtain ⟨-, -, -, hby, -⟩ := hlimit "ByHome".toList
  obtain ⟨-, -, -, -, hhome⟩ := hlimit "HomeByAge".toList
  refine ⟨by decide, ?_, ?_, ?_, ?_, _, hq, ?_⟩
  · exact hten (by decide +kernel) (by decide +kernel)
  · exact hzeros (by decide +kernel) (by decide +kernel)
  · exact hend rfl
  · exact hby (by decide +kernel) (by decide +kernel)
  · exact (hhome (by decide +kernel) (by decide +kernel) (by decide +kernel)).2.2 _ hq

end Action

end DerivedQuery
