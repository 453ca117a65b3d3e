import DerivedQuery.Proofs.Calls
import DerivedQuery.Proofs.Completion
import DerivedQuery.Proofs.Step

/-!
# Tokens are as long as they can be

Where a name is cut depends on the mode and on what follows: the same letters are a keyword, a part
of a word, or the first letter of a segment, where no keyword is looked for.

* `KeywordBegins`: one of the keywords that are asked for leads a text;
* `LongestKeyword`, `WholeNumber`, `WholeSegment`: keywords, limits and segments that cannot be
  longer;
* **`Cuts.longest`**: what a row of lexemes that leads to the end says of each of them;
* **`longest_of_tokenize`**: so is every token of a name.
-/

namespace DerivedQuery

/-! ## What cannot be longer -/

/-- One of the keywords of the categories asked for leads the text. -/
def KeywordBegins (accepts : Category → Bool) (text : Text) : Prop :=
  ∃ k ∈ Keyword.table, accepts k.kind.category = true ∧ Leads k.text text

/-- The token is spelled as the keyword and ends a camel-case word, and no longer keyword that the
mode accepts leads the text at which it stands. -/
structure LongestKeyword (m : Mode) (k : Keyword) (t : Token) (after : Text) : Prop where
  text : t.text = k.text
  atBoundary : atBoundary after = true
  longest : ∀ l ∈ Keyword.table, m.accepts l.kind.category = true →
    t.text.length < l.text.length → ¬ Leads l.text (t.text ++ after)

/-- The token is the word that opens a limit and all the digits behind it, which are the number. -/
structure WholeNumber (n : Nat) (t : Token) (after : Text) : Prop where
  text : t.text = limitWord ++ Nat.toDigits 10 n
  ends : ∀ d r, after = d :: r → d.isDigit = false

/-- The token is a segment of a path, which goes on until a keyword begins that may follow the path.
Its first letter begins no keyword. -/
structure WholeSegment (within : Mode) (before : Text) (t : Token) (after : Text) : Prop where
  spelled : ∃ c cs, t.text = c :: cs ∧ c.isAlpha = true ∧ (∀ d ∈ cs, d.isAlphanum = true) ∧
    (before.getLast? ≠ some separator → c.isUpper = true)
  goesOn : ∀ u d w, t.text = u ++ d :: w → u ≠ [] → d.isUpper = true →
    ¬ KeywordBegins within.accepts (d :: w ++ after)
  ends : after = [] ∨ (∃ r, after = separator :: r) ∨
    ∃ d r, after = d :: r ∧ d.isUpper = true ∧ KeywordBegins within.accepts after

/-- The token, cut in the mode `m` between two texts, cannot be longer. -/
structure Longest (m within : Mode) (before : Text) (t : Token) (after : Text) : Prop where
  keyword : ∀ k ∈ Keyword.table, t.kind = k.kind → LongestKeyword m k t after
  limit : ∀ n, t.kind = .first n → WholeNumber n t after
  segment : t.kind = .pathStart ∨ t.kind = .pathPart → WholeSegment within before t after

theorem longestKeyword?_eq_none_iff_not_begins {accepts : Category → Bool} {text : Text} :
    longestKeyword? accepts text = none ↔ ¬ KeywordBegins accepts text := by
  rw [longestKeyword?_eq_none_iff]
  simp only [KeywordBegins, not_exists, not_and]

/-! ## Numbers -/

section Numbers

variable {settings : Settings} {digits : Text} {n : Nat}

theorem digitChar_toNat_sub {d : Char} (hd : d.isDigit = true) :
    (d.toNat - '0'.toNat).digitChar = d ∧ d.toNat - '0'.toNat < 10 := by
  have h : 48 ≤ d.toNat ∧ d.toNat ≤ 57 := by
    rw [Char.isDigit, Bool.and_eq_true, decide_eq_true_eq, decide_eq_true_eq, ge_iff_le,
      UInt32.le_iff_toNat_le, UInt32.le_iff_toNat_le] at hd
    exact hd
  have key : ∀ n < 10, n.digitChar = Char.ofNat (n + 48) := by decide
  have hzero : '0'.toNat = 48 := rfl
  have hlt : d.toNat - 48 < 10 := by omega
  rw [hzero]
  exact ⟨by rw [key _ hlt, Nat.sub_add_cancel h.1, Char.ofNat_toNat], hlt⟩

/-- **Digits without a leading zero** are those of the number they stand for. -/
theorem toDigits_ofDigitChars (hne : digits ≠ []) (hd : ∀ d ∈ digits, d.isDigit = true)
    (hz : ¬ (1 < digits.length ∧ digits.head? = some '0')) :
    Nat.toDigits 10 (Nat.ofDigitChars 10 digits 0) = digits := by
  -- the last digit is split off, since numbers are written from the front
  induction digits using List.reverseRecOn with
  | nil => exact absurd rfl hne
  | append_singleton ds d ih =>
    obtain ⟨hchar, hlt⟩ := digitChar_toNat_sub (hd d (by simp))
    rw [Nat.ofDigitChars_append, Nat.ofDigitChars_cons, Nat.ofDigitChars_nil]
    rcases eq_or_ne ds [] with rfl | hds
    · rw [Nat.ofDigitChars_nil, Nat.mul_zero, Nat.zero_add, Nat.toDigits_of_lt_base hlt, hchar]
      rfl
    · have hhead : ds.head? ≠ some '0' := fun h => hz
        ⟨by simpa using List.length_pos_iff.mpr hds, by rw [List.head?_append, h]; rfl⟩
      have hds' := ih hds (fun e he => hd e (by simp [he])) fun h => hhead h.2
      have hpos : Nat.ofDigitChars 10 ds 0 ≠ 0 := fun h => by
        rw [h] at hds'
        exact hhead (by rw [← hds']; rfl)
      rw [Nat.toDigits_of_base_le (by decide) (by omega), Nat.mul_add_div (by decide),
        Nat.div_eq_of_lt hlt, Nat.add_zero, Nat.mul_add_mod, Nat.mod_eq_of_lt hlt, hds', hchar]

theorem eq_toDigits_of_limitOf? (hne : digits ≠ []) (hd : ∀ d ∈ digits, d.isDigit = true)
    (h : limitOf? settings digits = some n) : digits = Nat.toDigits 10 n := by
  rw [limitOf?] at h
  split_ifs at h with hz
  obtain rfl := Option.some.inj h
  exact (toDigits_ofDigitChars hne hd hz).symm

end Numbers

/-! ## Lexemes -/

section Lexemes

variable {settings : Settings} {m within : Mode} {b : Bool} {prev : Option Char} {p q : Piece}
  {r r' before : Text} {k : Keyword} {n i : Nat}

theorem Lexeme.longestKeyword (h : Lexeme settings m b prev p r) (hk : k ∈ Keyword.table)
    (hp : p.kind = k.kind) : LongestKeyword m k ⟨p.kind, p.text, i⟩ r := by
  obtain ⟨ht, hb, -⟩ := h.of_keyword hk hp
  refine ⟨ht, hb, fun l hl ha hlen hlead => ?_⟩
  cases h with
  | @keyword _ _ _ k' _ _ hlong =>
    obtain ⟨-, -, -, hmax⟩ := longestKeyword?_eq_some_iff.mp hlong
    exact absurd (hmax l hl ha hlead) (Nat.not_le.mpr hlen)
  | _ =>
    have hkey := Keyword.isKeyword hk
    rw [← hp] at hkey
    cases hkey

theorem Lexeme.wholeNumber (h : Lexeme settings m b prev p r) (hp : p.kind = .first n) :
    WholeNumber n ⟨p.kind, p.text, i⟩ r := by
  cases h with
  | @limit _ _ _ _ digits _ _ hd ht hl =>
    obtain rfl := Kind.first.inj hp
    obtain ⟨hdigits, hrest⟩ := takeWhile_append_eq_iff.mp ht
    refine ⟨congrArg (limitWord ++ ·) (eq_toDigits_of_limitOf? hd hdigits hl), ?_⟩
    rintro d ds rfl
    simpa [List.takeWhile_cons] using hrest
  | keyword _ hk => exact absurd hp (kind_ne_of_longestKeyword? hk rfl)
  | _ => cases hp

/-- Within a path, a lexeme that is no segment stands at the end of the name, is a separator or
begins with a keyword. -/
theorem Lexeme.ends_segment (h : Lexeme settings m b prev p r) (hm : m.isWithinPath = true)
    (hs : prev ≠ some separator) :
    p.text ++ r = [] ∨ (∃ r', p.text ++ r = separator :: r') ∨
      ∃ d r', p.text ++ r = d :: r' ∧ d.isUpper = true ∧
        KeywordBegins m.accepts (p.text ++ r) := by
  cases h with
  | finish => exact .inl rfl
  | keyword _ hk =>
    obtain ⟨hmem, ha, hlead, -⟩ := longestKeyword?_eq_some_iff.mp hk
    obtain ⟨d, ds, he, hd⟩ := Keyword.exists_cons hmem
    exact .inr (.inr ⟨d, ds ++ r, by rw [he, List.cons_append], hd, _, hmem, ha, hlead⟩)
  | pathSeparator => exact .inr (.inl ⟨_, rfl⟩)
  | pathPart => exact absurd rfl hs
  | limit ha => exact absurd ha (by simp [(Mode.accepts_eq_false hm).1])
  | pathStart ha => exact absurd ha (by simp [(Mode.accepts_eq_false hm).2])
  | leading | capitalized | preamble | itemSeparator => cases hm

theorem Lexeme.exists_segment (h : Lexeme settings m b prev p r)
    (hp : p.kind = .pathStart ∨ p.kind = .pathPart) (hn : m.next? p.kind = some within) :
    within.isWithinPath = true ∧ ∃ c cs, p.text = c :: cs ∧ c.isAlpha = true ∧
      (prev ≠ some separator → c.isUpper = true) ∧
        segmentTail within.accepts (cs ++ r) = cs := by
  cases h with
  | pathStart _ hw hs _ _ ht =>
    obtain rfl := Option.some.inj (hw.symm.trans hn)
    refine ⟨Mode.isWithinPath_of_pathMode? hw, _, _, rfl, isAlpha_of_startsPath hs, fun hne => ?_,
      ht⟩
    simpa [startsPath, hne] using hs
  | pathPart hm hc ht =>
    obtain rfl := Option.some.inj ((Mode.next?_part hm).2.symm.trans hn)
    exact ⟨hm, _, _, rfl, hc, fun hne => absurd rfl hne, ht⟩
  | keyword _ hk =>
    rcases hp with hp | hp <;> exact absurd hp (kind_ne_of_longestKeyword? hk rfl)
  | _ => simp at hp

end Lexemes

/-! ## Whole names -/

section Names

variable {settings : Settings} {name : Text} {c c' c'' : Cursor} {p : Piece} {ps qs : List Piece}
  {ts before after : List Token} {t : Token}

theorem Cut.wholeSegment (h : Cut settings c p c') (hp : p.kind = .pathStart ∨ p.kind = .pathPart)
    (hf : Finishes settings c') (i : Nat) (before : Text)
    (hb : before.getLast? = some separator ↔ c.previous = some separator) :
    WholeSegment c'.mode before ⟨p.kind, p.text, i⟩ c'.rest := by
  obtain ⟨hw, d, ds, htext, hd, hup, htail⟩ := h.lexeme.exists_segment hp h.next?
  obtain ⟨-, hcont⟩ := segmentTail_append_eq_iff.mp htail
  refine ⟨⟨d, ds, htext, hd, fun e he => ?_, fun hne => hup (mt hb.mpr hne)⟩, ?_, ?_⟩
  · rw [← htail] at he
    exact isAlphanum_of_mem_segmentTail e he
  · intro u e w he hu hup'
    rw [htext] at he
    obtain ⟨x, xs, rfl⟩ := List.exists_cons_of_ne_nil hu
    have hsuf : e :: w <:+ ds := ⟨xs, (List.cons.inj he).2.symm⟩
    have hnone := hcont _ hsuf (List.cons_ne_nil e w)
    rw [List.cons_append, segmentContinues, isLower_eq_false_of_isUpper hup',
      isDigit_eq_false_of_isUpper hup'] at hnone
    rw [← longestKeyword?_eq_none_iff_not_begins, List.cons_append]
    simpa [hup'] using hnone
  · have hprev : c'.previous ≠ some separator := by
      rw [h.previous]
      rcases hp with hp | hp <;> exact h.lexeme.previous_ne_separator (by simp [hp]) (by simp [hp])
        (by simp [hp])
    obtain ⟨qs, c'', hcuts, hdone⟩ := hf
    cases hcuts with
    | nil => rw [hdone] at hw; cases hw
    | cons h' _ =>
      rw [h'.rest]
      exact h'.lexeme.ends_segment hw hprev

/-- **Each lexeme of a name** that comes to its end is as long as it can be. -/
theorem Cuts.longest (h : Cuts settings (.ofName name) (ps ++ p :: qs) c) (hd : c.mode = .done) :
    ∃ m within r, (place 0 ps).foldlM (fun m t => m.next? t.kind) .initial = some m ∧
      m.next? p.kind = some within ∧ name = textOf ps ++ (p.text ++ r) ∧
        Longest m within (textOf ps) ⟨p.kind, p.text, byteLength (textOf ps)⟩ r := by
  obtain ⟨c₁, hfront, hback⟩ := h.exists_of_append
  cases hback with
  | @cons _ _ c₂ _ _ hcut hrest =>
    have hname : name = textOf ps ++ c₁.rest := hfront.rest_eq
    have hprev : c₁.previous = (textOf ps).getLast? := by
      rw [hfront.previous_eq]
      exact Option.or_none
    refine ⟨c₁.mode, c₂.mode, c₂.rest, hfront.foldlM_next? 0, hcut.next?, by rw [hname, hcut.rest],
      fun k hk hp => hcut.lexeme.longestKeyword hk hp, fun n hp => hcut.lexeme.wholeNumber hp,
      fun hp => hcut.wholeSegment hp ⟨qs, c, hrest, hd⟩ _ _ (by rw [hprev])⟩

/-- **Every token of a name is as long as it can be.** With `m` the mode in front of it: a keyword
is spelled as the table says, ends a camel-case word, and no longer keyword that the mode accepts
begins where it does. A limit takes all the digits that follow its word, which are those of its
number. A segment begins with a letter, in upper case unless it stands behind a separator, goes on
with letters and digits, and ends where the name does, at a separator, or where a keyword begins
that may follow it; behind its first letter none begins in it. -/
theorem longest_of_tokenize (h : tokenize settings name = .ok ts)
    (ht : ts = before ++ t :: after) :
    ∃ m within u r, before.foldlM (fun m t => m.next? t.kind) .initial = some m ∧
      m.next? t.kind = some within ∧ name = u ++ (t.text ++ r) ∧ byteLength u = t.position ∧
        Longest m within u t r := by
  obtain ⟨ps, c, hcuts, hd, hplace⟩ := tokenize_eq_ok_iff.mp h
  obtain ⟨us, vs, rfl, rfl, hrest⟩ := exists_of_place_eq_append (hplace.symm.trans ht)
  cases vs with
  | nil => cases hrest
  | cons p vs =>
    rw [place_cons, List.cons.injEq, Nat.zero_add] at hrest
    obtain ⟨rfl, -⟩ := hrest
    obtain ⟨m, within, r, hm, hn, hname, hlong⟩ := hcuts.longest hd
    exact ⟨m, within, textOf us, r, hm, hn, hname, rfl, hlong⟩

theorem longest_findFirst10Home_zipByAgeGreaterThanEqual :
    ∃ ts, tokenize {} "findFirst10Home_zipByAgeGreaterThanEqual".toList = .ok ts ∧
      ∀ t ∈ [(⟨.first 10, "First10".toList, 4⟩ : Token), ⟨.pathPart, "zip".toList, 16⟩,
          ⟨.operator .greaterThanEqual, "GreaterThanEqual".toList, 24⟩],
        ∃ before after, ts = before ++ t :: after ∧
          ∃ m within u r, before.foldlM (fun m t => m.next? t.kind) .initial = some m ∧
            m.next? t.kind = some within ∧
            "findFirst10Home_zipByAgeGreaterThanEqual".toList = u ++ (t.text ++ r) ∧
            byteLength u = t.position ∧ Longest m within u t r := by
  obtain ⟨ts, ht⟩ : ∃ ts : List Token, ts =
      [⟨.action .find, "find".toList, 0⟩, ⟨.first 10, "First10".toList, 4⟩,
        ⟨.pathStart, "Home".toList, 11⟩, ⟨.separator, ['_'], 15⟩, ⟨.pathPart, "zip".toList, 16⟩,
        ⟨.criteria, "By".toList, 19⟩, ⟨.pathStart, "Age".toList, 21⟩,
        ⟨.operator .greaterThanEqual, "GreaterThanEqual".toList, 24⟩, ⟨.finish, [], 40⟩] :=
    ⟨_, rfl⟩
  have h : tokenize {} "findFirst10Home_zipByAgeGreaterThanEqual".toList = .ok ts := by
    rw [ht]
    decide +kernel
  refine ⟨ts, h, ?_⟩
  simp only [List.forall_mem_cons, List.not_mem_nil, false_imp_iff, implies_true, and_true]
  have hlimit : ts = ts.take 1 ++ ⟨.first 10, "First10".toList, 4⟩ :: ts.drop 2 := by rw [ht]; rfl
  have hpart : ts = ts.take 4 ++ ⟨.pathPart, "zip".toList, 16⟩ :: ts.drop 5 := by rw [ht]; rfl
  have hoperator : ts = ts.take 7 ++
      ⟨.operator .greaterThanEqual, "GreaterThanEqual".toList, 24⟩ :: ts.drop 8 := by rw [ht]; rfl
  exact ⟨⟨_, _, hlimit, longest_of_tokenize h hlimit⟩, ⟨_, _, hpart, longest_of_tokenize h hpart⟩,
    ⟨_, _, hoperator, longest_of_tokenize h hoperator⟩⟩

end Names

end DerivedQuery
