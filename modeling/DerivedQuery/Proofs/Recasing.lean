import DerivedQuery.Proofs.Behind
import DerivedQuery.Proofs.Bytes
import DerivedQuery.Proofs.Completion
import DerivedQuery.Proofs.Preamble

/-!
# The case of letters behind separators

Case tells words and segments apart, but not right behind a separator, where a segment begins with
any letter. Two names that differ there alone are cut in the same places.

* `flipCase`, `Recased`: a text with such letters in the other case;
* `Recased.leads_iff`, `Recased.nextPiece_eq`: the same words lead both texts, and the same piece is
  cut off them, unless it begins behind a separator;
* `Cursor.Recased`, **`Cut.recased`**: two scans in lockstep; `Piece.Alike`: what they cut;
* `Cuts.recased`, `Reads.recased`: rows of lexemes, and drafts;
* **`tokenize_and_parse_recased`**: tokens, diagnostics and queries are the same.
-/

namespace DerivedQuery

/-! ## Letters in the other case -/

/-- A letter in the other case. -/
def flipCase (c : Char) : Char := if c.isLower then c.toUpper else c.toLower

/-- In the second text some letters are in the other case, each of them right behind a separator.
The flag tells whether a separator stands in front of the texts. -/
inductive Recased : Bool → Text → Text → Prop
  | nil {behind} : Recased behind [] []
  | keep {behind cs ds} (c : Char) (t : Recased (c == separator) cs ds) :
    Recased behind (c :: cs) (c :: ds)
  | flip {cs ds} (c : Char) (hc : c.isAlpha = true) (t : Recased false cs ds) :
    Recased true (c :: cs) (flipCase c :: ds)

section Letters

variable {c : Char}

theorem flipCase_spec (hc : c.isAlpha = true) :
    (flipCase c).isAlpha = true ∧ (flipCase c).toLower = c.toLower ∧
      (flipCase c).utf8Size = c.utf8Size ∧ flipCase (flipCase c) = c := by
  have key : ∀ n < 128, (Char.ofNat n).isAlpha = true →
      (flipCase (Char.ofNat n)).isAlpha = true ∧
        (flipCase (Char.ofNat n)).toLower = (Char.ofNat n).toLower ∧
        (flipCase (Char.ofNat n)).utf8Size = (Char.ofNat n).utf8Size ∧
        flipCase (flipCase (Char.ofNat n)) = Char.ofNat n := by decide +kernel
  have h := key c.toNat (isAscii_isAlpha c hc)
  rw [Char.ofNat_toNat] at h
  exact h hc

theorem beq_separator_of_isAlphanum (hc : c.isAlphanum = true) : (c == separator) = false := by
  rw [beq_eq_false_iff_ne]
  exact ne_separator_of_isAlphanum hc

theorem beq_separator_of_isAlpha (hc : c.isAlpha = true) : (c == separator) = false :=
  beq_separator_of_isAlphanum (isAlphanum_of_isAlpha hc)

end Letters

/-! ## Texts that differ behind separators -/

section Texts

variable {settings : Settings} {behind : Bool} {t t' u v r r' w : Text} {prev prev' : Option Char}
  {m : Mode} {b : Bool} {c : Char}

theorem Recased.symm (h : Recased behind t t') : Recased behind t' t := by
  induction h with
  | nil => exact .nil
  | keep c _ ih => exact .keep c ih
  | flip c hc _ ih =>
    obtain ⟨halpha, -, -, hflip⟩ := flipCase_spec hc
    have h := Recased.flip (flipCase c) halpha ih
    rwa [hflip] at h

theorem Recased.drop (h : Recased (prev == some separator) (u ++ r) (v ++ r'))
    (hlen : u.length = v.length) : Recased (u.getLast?.or prev == some separator) r r' := by
  induction u generalizing v prev with
  | nil =>
    cases v with
    | nil => exact h
    | cons => cases hlen
  | cons c u ih =>
    cases v with
    | nil => cases hlen
    | cons d v =>
      rw [getLast?_cons_or]
      refine ih ?_ (Nat.succ.inj hlen)
      generalize (prev == some separator) = behind at h
      cases h with
      | keep _ ht => exact ht
      | flip _ hc ht =>
        have hsome : (some c == some separator) = false := beq_separator_of_isAlpha hc
        rwa [hsome]

/-- Behind a text without separators nothing has changed. -/
theorem Recased.exists_of_append (h : Recased false (u ++ r) t') (hu : separator ∉ u) :
    ∃ r', t' = u ++ r' ∧ Recased false r r' := by
  induction u generalizing t' with
  | nil => exact ⟨t', rfl, h⟩
  | cons c u ih =>
    obtain ⟨hc, hu⟩ := not_or.mp (mt List.mem_cons.mpr hu)
    cases h with
    | keep _ ht =>
      rw [beq_eq_false_iff_ne.mpr (Ne.symm hc)] at ht
      obtain ⟨r', rfl, hr⟩ := ih ht hu
      exact ⟨r', rfl, hr⟩

theorem leads_cons_cons {x : Char} {cs : Text} :
    Leads (x :: w) (c :: cs) ↔ x = c ∧ Leads w cs := by
  simp only [Leads, List.cons_append, List.cons.injEq, and_assoc, exists_and_left, eq_comm]

theorem separator_not_mem_of_mem_words (h : w ∈ words) : separator ∉ w := by
  have key : ∀ w ∈ words, separator ∉ w := by decide +kernel
  exact key w h

/-- **A word without separators** leads both texts or none of them. -/
theorem Recased.leads_iff (h : Recased false t t') (hw : separator ∉ w) :
    Leads w t ↔ Leads w t' := by
  induction w generalizing t t' with
  | nil =>
    rw [leads_nil_iff, leads_nil_iff]
    cases h <;> rfl
  | cons x w ih =>
    cases h with
    | nil => rfl
    | keep c ht =>
      rw [leads_cons_cons, leads_cons_cons]
      refine and_congr_right fun he => ?_
      subst he
      obtain ⟨hx, hw⟩ := not_or.mp (mt List.mem_cons.mpr hw)
      rw [beq_eq_false_iff_ne.mpr (Ne.symm hx)] at ht
      exact ih ht hw

theorem Recased.longestKeyword?_eq (h : Recased false t t') (accepts : Category → Bool) :
    longestKeyword? accepts t' = longestKeyword? accepts t := by
  have hleads : ∀ k ∈ Keyword.table, (Leads k.text t' ↔ Leads k.text t) := fun k hk =>
    (h.leads_iff (separator_not_mem_of_mem_words (Keyword.mem_words hk))).symm
  ext k
  rw [longestKeyword?_eq_some_iff, longestKeyword?_eq_some_iff]
  refine and_congr_right fun hk => and_congr_right fun _ => and_congr (hleads k hk) ?_
  exact forall₂_congr fun l hl => imp_congr_right fun _ => imp_congr_left (hleads l hl)

theorem Recased.segmentContinues_eq (h : Recased false t t') (accepts : Category → Bool) :
    segmentContinues accepts t' = segmentContinues accepts t := by
  have hkey := h.longestKeyword?_eq accepts
  cases h with
  | nil => rfl
  | keep c ht => rw [segmentContinues, segmentContinues, hkey]

theorem Recased.segmentTail_eq (h : Recased false t t') (accepts : Category → Bool) :
    segmentTail accepts t' = segmentTail accepts t := by
  induction t generalizing t' with
  | nil =>
    cases h
    rfl
  | cons c cs ih =>
    have hc := h.segmentContinues_eq accepts
    cases h with
    | keep _ ht =>
      rw [segmentTail, segmentTail, hc]
      split
      · next hs =>
        rw [beq_separator_of_isAlphanum (isAlphanum_of_segmentContinues hs)] at ht
        rw [ih ht]
      · rfl

theorem Recased.takeWhile_isDigit_eq (h : Recased false t t') :
    t'.takeWhile Char.isDigit = t.takeWhile Char.isDigit := by
  induction t generalizing t' with
  | nil =>
    cases h
    rfl
  | cons c cs ih =>
    cases h with
    | keep _ ht =>
      by_cases hc : c.isDigit = true
      · rw [beq_separator_of_isAlphanum (by simp [Char.isAlphanum, hc])] at ht
        rw [List.takeWhile_cons_of_pos hc, List.takeWhile_cons_of_pos hc, ih ht]
      · rw [List.takeWhile_cons_of_neg hc, List.takeWhile_cons_of_neg hc]

theorem Recased.limitRun?_eq (h : Recased false t t') (settings : Settings) :
    limitRun? settings t' = limitRun? settings t := by
  have hword : separator ∉ limitWord := by decide
  by_cases hw : limitWord <+: t
  · obtain ⟨r, rfl⟩ := hw
    obtain ⟨r', rfl, hr⟩ := h.exists_of_append hword
    have hempty : r' = [] ↔ r = [] := by cases hr <;> simp
    simp only [limitRun?, List.isPrefixOf?_eq_some_iff_append_eq.mpr rfl, hr.takeWhile_isDigit_eq,
      hr.longestKeyword?_eq, hempty]
  · have hw' : ¬ limitWord <+: t' := by
      rintro ⟨r', rfl⟩
      obtain ⟨r, rfl, -⟩ := h.symm.exists_of_append hword
      exact hw (List.prefix_append limitWord r)
    rw [limitRun?_eq_none_iff.mpr fun after he => absurd ⟨after, he.symm⟩ hw,
      limitRun?_eq_none_iff.mpr fun after he => absurd ⟨after, he.symm⟩ hw']

theorem Recased.separatorRun_eq (h : Recased behind t t') (settings : Settings) :
    separatorRun settings t' = separatorRun settings t := by
  unfold separatorRun
  cases h with
  | nil | keep => rfl
  | flip c hc _ => simp only [hc, (flipCase_spec hc).1]

theorem Recased.partPiece?_eq (h : Recased false t t') (hp : prev ≠ some separator)
    (hp' : prev' ≠ some separator) : partPiece? m prev' t' = partPiece? m prev t := by
  cases h with
  | nil => rfl
  | keep c ht =>
    rw [partPiece?.eq_def, partPiece?.eq_def m prev]
    simp only [hp, hp', if_false]
    generalize (c == separator) = behind at ht
    cases ht with
    | nil | keep => rfl
    | flip d hd _ => simp only [hd, (flipCase_spec hd).1]

theorem Recased.front_plainRun_eq (h : Recased false t t') (hp : prev ≠ some separator)
    (hp' : prev' ≠ some separator) :
    (plainRun settings m prev' t').front = (plainRun settings m prev t).front := by
  cases h with
  | nil => rfl
  | keep c ht =>
    rw [plainRun, plainRun, startsPath_congr (iff_of_false hp' hp)]
    split
    · next hc =>
      have halpha := isAlpha_of_startsPath ((Bool.and_eq_true _ _).mp hc).2
      rw [beq_separator_of_isAlpha halpha] at ht
      cases hw : m.pathMode? with
      | none => simp only [pathRun, hw]
      | some within => simp only [pathRun, hw, Run.front, fst_pathTail, ht.segmentTail_eq]
    · rw [ht.separatorRun_eq]

/-- **The next piece** is the same in front of both texts, unless a separator stands before it. -/
theorem Recased.nextPiece_eq (settings : Settings) (h : Recased false t t') (hi : m ≠ .initial)
    (hp : prev ≠ some separator) (hp' : prev' ≠ some separator) :
    nextPiece settings ⟨m, b, prev', t'⟩ = nextPiece settings ⟨m, b, prev, t⟩ := by
  have hpart : partPiece? m prev' t' = partPiece? m prev t := h.partPiece?_eq hp hp'
  have hempty : t' = [] ↔ t = [] := by cases h <;> simp
  have hrun : (nextRun settings m b prev' t').front = (nextRun settings m b prev t).front := by
    rw [nextRun, nextRun, if_neg hi, if_neg hi]
    simp only [hempty]
    split
    · rfl
    · split
      · rfl
      · rw [clauseRun, clauseRun, h.limitRun?_eq, h.longestKeyword?_eq]
        split
        · rfl
        · split
          · rfl
          · exact h.front_plainRun_eq hp hp'
  rw [nextPiece, nextPiece]
  dsimp only
  rw [hpart, hrun]

end Texts

/-! ## Scans in lockstep -/

/-- The pieces differ at most in the case of their first letter. -/
structure Piece.Alike (p q : Piece) : Prop where
  kind : q.kind = p.kind
  text : q.text = p.text ∨
    ∃ d ds, d.isAlpha = true ∧ p.text = d :: ds ∧ q.text = flipCase d :: ds

/-- Two scans stand at the same place of names that differ behind separators alone; and where they
stand behind a separator, a segment begins. -/
structure Cursor.Recased (c e : Cursor) : Prop where
  mode : e.mode = c.mode
  isBulk : e.isBulk = c.isBulk
  previous : c.previous = some separator ↔ e.previous = some separator
  rest : DerivedQuery.Recased (c.previous == some separator) c.rest e.rest
  segment : c.previous = some separator → (∃ d ds, c.rest = d :: ds ∧ d.isAlpha = true) ∧
    (c.mode.isWithinPath = true ∨ c.mode = .orderStart)

section Lockstep

variable {settings : Settings} {c c' e : Cursor} {p q : Piece} {ps qs : List Piece}
  {d d' : Draft} {prev prev' : Option Char}

theorem Piece.Alike.spec (h : p.Alike q) : q.text.length = p.text.length ∧
    byteLength q.text = byteLength p.text ∧ uncapitalize q.text = uncapitalize p.text := by
  rcases h.text with ht | ⟨d, ds, hd, hp, hq⟩
  · rw [ht]
    exact ⟨rfl, rfl, rfl⟩
  · obtain ⟨-, hlower, hsize, -⟩ := flipCase_spec hd
    rw [hp, hq]
    refine ⟨rfl, ?_, ?_⟩
    · rw [byteLength_cons, byteLength_cons, hsize]
    · rw [uncapitalize, uncapitalize, hlower]

theorem Piece.Alike.previous_iff (h : p.Alike q)
    (hp : prev = some separator ↔ prev' = some separator) :
    p.text.getLast?.or prev = some separator ↔ q.text.getLast?.or prev' = some separator := by
  rcases h.text with ht | ⟨d, ds, hd, hp, hq⟩
  · rw [ht]
    cases p.text.getLast? with
    | none => exact hp
    | some d => rfl
  · rw [hp, hq, getLast?_cons_or, getLast?_cons_or]
    cases ds.getLast? with
    | some d => rfl
    | none =>
      have hne {d : Char} (hd : d.isAlpha = true) : ¬ some d = some separator := fun he =>
        ne_separator_of_isAlphanum (isAlphanum_of_isAlpha hd) (Option.some.inj he)
      exact iff_of_false (hne hd) (hne (flipCase_spec hd).1)

theorem Piece.Alike.add_eq (h : p.Alike q) (d : Draft) (n : Nat) :
    d.add ⟨q.kind, q.text, n⟩ = d.add ⟨p.kind, p.text, n⟩ := by
  obtain ⟨hlength, -, hsame⟩ := h.spec
  have hempty : q.text = [] ↔ p.text = [] := by
    rw [← List.length_eq_zero_iff, ← List.length_eq_zero_iff, hlength]
  have hsegment : d.addSegment q.text = d.addSegment p.text := by
    rw [Draft.addSegment, Draft.addSegment, hsame]
    simp only [hempty]
  rw [h.kind]
  cases hk : p.kind with
  | pathStart | pathPart => exact congrArg Except.ok hsegment
  | _ => rfl

/-- **The next pieces** of two scans in lockstep are alike, or the same fault stops both. -/
theorem Cursor.Recased.nextPiece (settings : Settings) (h : c.Recased e) (hi : c.mode ≠ .initial) :
    (∃ f, nextPiece settings c = .error f ∧ nextPiece settings e = .error f) ∨
      ∃ p q, nextPiece settings c = .ok p ∧ nextPiece settings e = .ok q ∧ p.Alike q := by
  obtain ⟨m, b, prev, t⟩ := c
  obtain ⟨m', b', prev', t'⟩ := e
  obtain ⟨hm, hb, hprev, hrest, hsegment⟩ := h
  dsimp only at hm hb hprev hrest hsegment hi
  subst hm hb
  by_cases hp : prev = some separator
  · obtain ⟨⟨d, ds, rfl, hd⟩, hm⟩ := hsegment hp
    obtain ⟨k, within, hnext⟩ := exists_nextPiece_of_separator settings hm
    obtain rfl := hprev.mp hp
    subst hp
    cases hrest with
    | keep _ ht =>
      rw [beq_separator_of_isAlpha hd] at ht
      refine .inr ⟨_, _, hnext _ hd, hnext _ hd, rfl, .inl ?_⟩
      rw [ht.segmentTail_eq]
    | flip _ _ ht =>
      refine .inr ⟨_, _, hnext _ hd, hnext _ (flipCase_spec hd).1, rfl, .inr ⟨d, _, hd, rfl, ?_⟩⟩
      rw [ht.segmentTail_eq]
  · rw [beq_eq_false_iff_ne.mpr hp] at hrest
    have hsame := hrest.nextPiece_eq settings (b := b') hi hp (mt hprev.mpr hp)
    cases hn : DerivedQuery.nextPiece settings ⟨m', b', prev, t⟩ with
    | error f => exact .inl ⟨f, rfl, hsame.trans hn⟩
    | ok p => exact .inr ⟨p, p, rfl, hsame.trans hn, rfl, .inl rfl⟩

/-- **A lexeme is cut off both**, and they go on in lockstep. -/
theorem Cut.recased (hc : Cut settings c p c') (h : c.Recased e) (hi : c.mode ≠ .initial) :
    ∃ q e', Cut settings e q e' ∧ p.Alike q ∧ c'.Recased e' := by
  rcases h.nextPiece settings hi with ⟨f, hf, -⟩ | ⟨p', q, hp, hq, halike⟩
  · exact absurd hc (stuck_of_error hf _ _)
  · obtain rfl := Except.ok.inj (hp.symm.trans hc.nextPiece_eq)
    obtain ⟨e', hcut⟩ := exists_cut_of_nextPiece hq
    have hprev := halike.previous_iff h.previous
    have hmode := hcut.next?
    rw [halike.kind, h.mode, hc.next?] at hmode
    have hrest := h.rest
    rw [hc.rest, hcut.rest] at hrest
    refine ⟨q, e', hcut, halike, (Option.some.inj hmode).symm, ?_, ?_, ?_, fun hs => ?_⟩
    · rw [hc.isBulk, hcut.isBulk, h.isBulk, halike.kind]
    · rwa [hc.previous, hcut.previous]
    · rw [hc.previous]
      exact hrest.drop halike.spec.1.symm
    · have hk : p'.kind = .separator := by
        by_contra hk
        rw [hc.previous] at hs
        by_cases hfinish : p'.kind = .finish
        · obtain ⟨htext, hempty⟩ := hc.lexeme.of_finish hfinish
          rw [htext] at hs
          obtain ⟨⟨d, ds, hd, -⟩, -⟩ := h.segment hs
          rw [hc.rest, htext, hempty] at hd
          cases hd
        · refine hc.lexeme.previous_ne_separator hk (fun hpre => ?_) hfinish hs
          obtain ⟨a, hm, -⟩ := hc.lexeme.of_preamble hpre
          exact hi hm
      exact (hc.of_separator hk).2

/-- **Rows of lexemes** that are alike are cut off both. -/
theorem Cuts.recased (hc : Cuts settings c ps c') (h : c.Recased e) (hi : c.mode ≠ .initial) :
    ∃ qs e', Cuts settings e qs e' ∧ List.Forall₂ Piece.Alike ps qs ∧ c'.Recased e' := by
  induction hc generalizing e with
  | nil c => exact ⟨[], e, .nil e, .nil, h⟩
  | cons hcut _ ih =>
    obtain ⟨q, e₁, hcut', halike, h₁⟩ := hcut.recased h hi
    obtain ⟨qs, e', hcuts, hrow, h'⟩ := ih h₁ (hcut.mode_ne_initial hi)
    exact ⟨q :: qs, e', .cons hcut' hcuts, .cons halike hrow, h'⟩

/-- **A draft** reads the same off both. -/
theorem Reads.recased (hr : Reads settings c d c' d') (h : c.Recased e) (hi : c.mode ≠ .initial) :
    ∃ e', Reads settings e d e' d' ∧ c'.Recased e' := by
  induction hr generalizing e with
  | refl c d => exact ⟨e, .refl e d, h⟩
  | step hcut hadd _ ih =>
    obtain ⟨q, e₁, hcut', halike, h₁⟩ := hcut.recased h hi
    obtain ⟨e', hreads, h'⟩ := ih h₁ (hcut.mode_ne_initial hi)
    exact ⟨e', .step hcut' (fun n => (halike.add_eq _ n).trans (hadd n)) hreads, h'⟩

theorem byteLength_textOf_of_alike (h : List.Forall₂ Piece.Alike ps qs) :
    byteLength (textOf qs) = byteLength (textOf ps) := by
  induction h with
  | nil => rfl
  | cons h _ ih => simp only [textOf_cons, byteLength_append, ih, h.spec.2.1]

end Lockstep

/-! ## Whole names -/

/-- What a token is and where it stands. -/
def Token.outline (t : Token) : Kind × Nat := (t.kind, t.position)

section Rows

variable {settings : Settings} {name name' : Text} {c e : Cursor} {d : Draft} {ps qs : List Piece}
  {q : Query} {f : Diagnostic} {ts : List Token}

theorem map_outline_of_alike (h : List.Forall₂ Piece.Alike ps qs) (n : Nat) :
    (place n qs).map Token.outline = (place n ps).map Token.outline := by
  induction h generalizing n with
  | nil => rfl
  | cons h _ ih =>
    simp only [place_cons, List.map_cons, Token.outline, h.kind, h.spec.2.1]
    exact congrArg _ (ih _)

theorem tokenize_error_of_recased (h : Cuts settings (.ofName name) ps c)
    (h' : Cuts settings (.ofName name') ps e) (hce : c.Recased e) (hi : c.mode ≠ .initial)
    (ht : tokenize settings name = .error f) : tokenize settings name' = .error f := by
  obtain ⟨qs, c', f', hqs, hdone, hf, rfl⟩ := h.tokenize_error_iff.mp ht
  obtain ⟨qs', e', hqs', hrow, hce'⟩ := hqs.recased hce hi
  refine h'.tokenize_error_iff.mpr ⟨qs', e', f', hqs', hce'.mode ▸ hdone, ?_, ?_⟩
  · rcases hce'.nextPiece settings (hqs.mode_ne_initial hi) with
      ⟨g, hg, hg'⟩ | ⟨p, q, hp, -⟩
    · rw [Except.error.inj (hf.symm.trans hg)]
      exact hg'
    · cases hf.symm.trans hp
  · rw [textOf_append, textOf_append, byteLength_append, byteLength_append,
      byteLength_textOf_of_alike hrow]

theorem tokenize_ok_of_recased (h : Cuts settings (.ofName name) ps c)
    (h' : Cuts settings (.ofName name') ps e) (hce : c.Recased e) (hi : c.mode ≠ .initial)
    (ht : tokenize settings name = .ok ts) :
    ∃ ts', tokenize settings name' = .ok ts' ∧ ts'.map Token.outline = ts.map Token.outline := by
  obtain ⟨qs, c', hqs, hdone, rfl⟩ := h.tokenize_ok_iff.mp ht
  obtain ⟨qs', e', hqs', hrow, hce'⟩ := hqs.recased hce hi
  refine ⟨_, h'.tokenize_ok_iff.mpr ⟨qs', e', hqs', hce'.mode.trans hdone, rfl⟩, ?_⟩
  rw [place_append, place_append, List.map_append, List.map_append, map_outline_of_alike hrow]

theorem parse_ok_of_recased (h : Cuts settings (.ofName name) ps c)
    (h' : Cuts settings (.ofName name') ps e) (hce : c.Recased e) (hi : c.mode ≠ .initial)
    (hfold : (place 0 ps).foldlM Draft.add {} = .ok d) (hp : parse settings name = .ok q) :
    parse settings name' = .ok q := by
  obtain ⟨c', d', hreads, hdone, hq⟩ := (h.parse_ok_iff hfold).mp hp
  obtain ⟨e', hreads', hce'⟩ := hreads.recased hce hi
  exact (h'.parse_ok_iff hfold).mpr ⟨e', d', hreads', hce'.mode.trans hdone, hq⟩

end Rows

section Names

variable {settings : Settings} {name r r' : Text} {ps : List Piece}

/-- **The action that is found** in a name is cut with the text before it. -/
theorem exists_cuts_of_actionRun (hname : name = textOf ps ++ r) (h : actionRun name = .cut ps) :
    ∃ a : Action, Cuts settings (.ofName name) ps (.behindAction a r) ∧
      (place 0 ps).foldlM Draft.add {} = .ok { action := some a } := by
  have hfound : ∃ (a : Action) (r' : Text), Cuts settings (.ofName name) ps (.behindAction a r') ∧
      (place 0 ps).foldlM Draft.add {} = .ok { action := some a } := by
    rw [actionRun] at h
    split at h
    · next a ha =>
      obtain rfl : [actionPiece a a.keyword] = ps := congrArg Run.pieces h
      obtain ⟨r', hcuts⟩ := exists_cuts_of_leadingAction? settings ha
      exact ⟨a, r', hcuts, foldlM_actionPiece a⟩
    · next hl =>
      split at h
      · next a hs =>
        obtain rfl : actionPieces [] a = ps := congrArg Run.pieces h
        obtain ⟨r', hcuts⟩ := exists_cuts_of_splitAtAction settings hl hs
        exact ⟨a, r', hcuts, foldlM_actionPieces [] a⟩
      · next u a hu hs =>
        obtain rfl : actionPieces u a = ps := by
          rw [actionPieces, if_neg hu]
          exact congrArg Run.pieces h
        obtain ⟨r', hcuts⟩ := exists_cuts_of_splitAtAction settings hl hs
        exact ⟨a, r', hcuts, foldlM_actionPieces u a⟩
      · next e _ =>
        have hfault : some e = none := congrArg Run.fault h
        cases hfault
  obtain ⟨a, r', hcuts, hfold⟩ := hfound
  obtain rfl : r' = r := List.append_cancel_left (hcuts.rest_eq.symm.trans hname)
  exact ⟨a, hcuts, hfold⟩

/-- Behind an action, a text may be exchanged for one that differs behind separators alone. -/
theorem Recased.exchangeable (h : Recased false r r') (a : Action) :
    Exchangeable (.afterAction a) a.keyword.getLast? r r' where
  subsumes _ w hw hl := by
    obtain ⟨u, -, hmem⟩ := hw
    have hsep : separator ∉ w := fun hs =>
      separator_not_mem_of_mem_words hmem (List.mem_append_right u hs)
    exact (h.leads_iff hsep).mpr hl
  atBoundary hb := leads_nil_iff.mp ((h.leads_iff List.not_mem_nil).mp (leads_nil_iff.mpr hb))
  digits hd := h.takeWhile_isDigit_eq.trans hd
  action hm := absurd hm a.afterAction_ne_initial
  letter hs := by cases a <;> cases hs
  segment hm := by cases a <;> cases hm
  limit hm := by cases a <;> cases hm

/-- **The case of a letter right behind a separator carries no meaning.** If an action is found in a
name, and behind it letters that stand right behind separators are put in the other case, the tokens
are of the same kinds at the same positions, or the same diagnostic results; and both names stand
for the same query, or are rejected with the same diagnostic. -/
theorem tokenize_and_parse_recased (hname : name = textOf ps ++ r) (ha : actionRun name = .cut ps)
    (hr : Recased false r r') :
    (tokenize settings (textOf ps ++ r')).map (List.map Token.outline) =
        (tokenize settings name).map (List.map Token.outline) ∧
      parse settings (textOf ps ++ r') = parse settings name := by
  obtain ⟨a, hcuts, hfold⟩ : ∃ a : Action, Cuts settings (.ofName name) ps (.behindAction a r) ∧
      (place 0 ps).foldlM Draft.add {} = .ok { action := some a } :=
    exists_cuts_of_actionRun hname ha
  have hi : Mode.afterAction a ≠ .initial := a.afterAction_ne_initial
  have hdone : Mode.afterAction a ≠ .done := by cases a <;> nofun
  have hcuts' : Cuts settings (.ofName (textOf ps ++ r')) ps (.behindAction a r') :=
    (hcuts.exchange hdone (hr.exchangeable a)).1
  have hsep : (a.keyword.getLast? == some separator) = false := by cases a <;> rfl
  have hstep : (Cursor.behindAction a r).Recased (.behindAction a r') :=
    ⟨rfl, rfl, Iff.rfl, hsep ▸ hr, fun hs => by cases a <;> cases hs⟩
  constructor
  · cases ht : tokenize settings name with
    | error f => rw [tokenize_error_of_recased hcuts hcuts' hstep hi ht]
    | ok ts =>
      obtain ⟨ts', ht', houtline⟩ := tokenize_ok_of_recased hcuts hcuts' hstep hi ht
      rw [ht']
      exact congrArg Except.ok houtline
  · cases hp : parse settings name with
    | error f =>
      rw [parse_eq_error_iff] at hp ⊢
      exact tokenize_error_of_recased hcuts hcuts' hstep hi hp
    | ok q => exact parse_ok_of_recased hcuts hcuts' hstep hi hfold hp

theorem tokenize_and_parse_recased_orZip :
    actionRun "my_GetByHome_orZip".toList =
        .cut [⟨.preamble, "my_".toList⟩, ⟨.action .get, "Get".toList⟩] ∧
      Recased false "ByHome_orZip".toList "ByHome_OrZip".toList ∧
      (tokenize {} "my_GetByHome_OrZip".toList).map (List.map Token.outline) =
        .ok [(.preamble, 0), (.action .get, 3), (.criteria, 6), (.pathStart, 8), (.separator, 12),
          (.pathPart, 13), (.finish, 18)] ∧
      parse {} "my_GetByHome_OrZip".toList = .ok
        { action := .get
          criteria :=
            [⟨none, { property := ⟨["home".toList, "orZip".toList], by decide, by decide⟩ }⟩] } ∧
      actionRun "findOrderByAgeDesc_not_".toList = .cut [⟨.action .find, "find".toList⟩] ∧
      Recased false "OrderByAgeDesc_not_".toList "OrderByAgeDesc_Not_".toList ∧
      parse {} "findOrderByAgeDesc_Not_".toList = .error (.danglingSeparator 22) := by
  have ha : actionRun "my_GetByHome_orZip".toList =
      .cut [⟨.preamble, "my_".toList⟩, ⟨.action .get, "Get".toList⟩] := by decide +kernel
  have ha' : actionRun "findOrderByAgeDesc_not_".toList =
      .cut [⟨.action .find, "find".toList⟩] := by decide +kernel
  have hr : Recased false "ByHome_orZip".toList "ByHome_OrZip".toList := by
    repeat' constructor
  have hr' : Recased false "OrderByAgeDesc_not_".toList "OrderByAgeDesc_Not_".toList := by
    repeat' constructor
  have ht : (tokenize {} "my_GetByHome_orZip".toList).map (List.map Token.outline) =
      .ok [(.preamble, 0), (.action .get, 3), (.criteria, 6), (.pathStart, 8), (.separator, 12),
        (.pathPart, 13), (.finish, 18)] := by decide +kernel
  have hp : parse {} "my_GetByHome_orZip".toList = .ok
      { action := .get
        criteria :=
          [⟨none, { property := ⟨["home".toList, "orZip".toList], by decide, by decide⟩ }⟩] } := by
    decide +kernel
  have he : parse {} "findOrderByAgeDesc_not_".toList = .error (.danglingSeparator 22) := by
    decide +kernel
  obtain ⟨htokens, hquery⟩ := @tokenize_and_parse_recased {} _ _ _ _ (by decide) ha hr
  obtain ⟨-, herror⟩ := @tokenize_and_parse_recased {} _ _ _ _ (by decide) ha' hr'
  exact ⟨ha, hr, htokens.trans ht, hquery.trans hp, ha', hr', herror.trans he⟩

end Names

end DerivedQuery
