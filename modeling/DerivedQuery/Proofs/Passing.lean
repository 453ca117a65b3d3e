import DerivedQuery.Proofs.Renderable

/-!
# Words and paths are passed

A scan goes on over a word or a path that has been written, wherever in a name it stands.

* `Passes`: the scan goes on over a text, behind whatever was cut before but a separator;
* `passes_keyword`, **`passes_path`**, `passes_limit`: over a keyword, a path, a limit;
* `Stops`: a text in front of which a path is complete.
-/

namespace DerivedQuery

/-- The scan goes on from in front of one text to in front of another. -/
def Passes (settings : Settings) (b : Bool) (m : Mode) (d : Draft) (t : Text) (m' : Mode)
    (d' : Draft) (t' : Text) : Prop :=
  ∀ prev, prev ≠ some separator →
    ∃ prev', prev' ≠ some separator ∧ Reads settings ⟨m, b, prev, t⟩ d ⟨m', b, prev', t'⟩ d'

section Passes

variable {settings : Settings} {b : Bool} {m m' m'' within : Mode} {d d' d'' : Draft}
  {t t' t'' r s : Text} {p : Piece} {k : Keyword}

theorem Passes.refl : Passes settings b m d t m d t := fun prev hp => ⟨prev, hp, .refl _ _⟩

theorem Passes.trans (h : Passes settings b m d t m' d' t')
    (h' : Passes settings b m' d' t' m'' d'' t'') : Passes settings b m d t m'' d'' t'' := by
  intro prev hp
  obtain ⟨prev', hp', hr⟩ := h prev hp
  obtain ⟨prev'', hp'', hr'⟩ := h' prev' hp'
  exact ⟨prev'', hp'', hr.trans hr'⟩

theorem Lexeme.reads {prev : Option Char} (h : Lexeme settings m b prev p r)
    (hn : m.next? p.kind = some m') (hb : Scan.isBulkAction p.kind = false) (hd : d.Adds p d') :
    Reads settings ⟨m, b, prev, p.text ++ r⟩ d ⟨m', b, p.text.getLast?.or prev, r⟩ d' := by
  have hcut := h.cut hn
  rw [hb, Bool.or_false] at hcut
  exact .step hcut hd (.refl _ _)

/-! ## Keywords -/

/-- A keyword is the longest one where it ends a camel-case word, unless the word Equal makes a
longer comparison of it. -/
theorem Keyword.longestKeyword?_append {accepts : Category → Bool} (hk : k ∈ Keyword.table)
    (ha : accepts k.kind.category = true) (hr : atBoundary r = true)
    (he : k.kind = .operator .greaterThan ∨ k.kind = .operator .lessThan →
      ¬ Leads "Equal".toList r) : longestKeyword? accepts (k.text ++ r) = some k := by
  have key : ∀ k ∈ Keyword.table, ∀ l ∈ Keyword.table, k.text <+: l.text →
      l.text.drop k.text.length = [] ∨
        (l.text.drop k.text.length).head?.any Char.isLower = true ∨
          (k.kind = .operator .greaterThan ∨ k.kind = .operator .lessThan) ∧
            l.text.drop k.text.length = "Equal".toList := by decide +kernel
  refine longestKeyword?_eq_some_iff.mpr ⟨hk, ha, leads_append_iff.mpr hr, fun l hl _ hlead => ?_⟩
  -- a longer keyword would go on in lower case, which no boundary does, or with the word Equal
  rcases leads_append_cases hlead with ⟨v, -, hv, -⟩ | ⟨w, hw, hlw⟩
  · rw [hv, List.length_append]
    omega
  · have hdrop := key k hk l hl (hw ▸ List.prefix_append _ _)
    rw [hw, List.drop_left] at hdrop
    rcases hdrop with rfl | hlow | ⟨hc, rfl⟩
    · simp [hw]
    · obtain ⟨x, rfl, -⟩ := hlw
      cases w with
      | nil => cases hlow
      | cons c cs => simp_all [atBoundary]
    · exact absurd hlw (he hc)

theorem Keyword.accepts_of_next? (hk : k ∈ Keyword.table) (h : m.next? k.kind = some m') :
    m.accepts k.kind.category = true := by
  have key : ∀ k ∈ Keyword.table, ∀ m ∈ Mode.every,
      (m.next? k.kind).isSome = true → m.accepts k.kind.category = true := by decide +kernel
  exact key k hk m m.mem_every (h ▸ rfl)

theorem passes_keyword (hk : k ∈ Keyword.table) (hn : m.next? k.kind = some m')
    (hr : atBoundary r = true)
    (he : k.kind = .operator .greaterThan ∨ k.kind = .operator .lessThan →
      ¬ Leads "Equal".toList r)
    (ho : k.kind = .ordering → b = false) (hd : d.Adds ⟨k.kind, k.text⟩ d') :
    Passes settings b m d (k.text ++ r) m' d' r := by
  intro prev hp
  have hlong := Keyword.longestKeyword?_append hk (Keyword.accepts_of_next? hk hn) hr he
  have hlex : Lexeme settings m b prev ⟨k.kind, k.text⟩ r :=
    .keyword (fun _ => hp) hlong fun h => by simp [ho h.1] at h
  exact ⟨_, getLast?_or_ne_of_mem_words (Keyword.mem_words hk) prev,
    hlex.reads hn (Keyword.isBulkAction_eq_false hk) hd⟩

/-! ## Paths -/

/-- The segments after the first one, each behind a separator. -/
def partsText (ss : List Text) : Text := ss.flatMap fun s => separator :: capitalize s

theorem Path.canonical_eq {p : Path} {s : Text} {ss : List Text} (h : p.segments = s :: ss) :
    p.canonical = capitalize s ++ partsText ss := by
  rw [Path.canonical, h, partsText]
  clear h
  induction ss generalizing s with
  | nil => simp [List.intercalate]
  | cons s' ss ih =>
    rw [List.map_cons, List.map_cons, List.intercalate_cons_cons, ← List.map_cons, ih]
    simp

theorem Path.Fits.atBoundary {p : Path} (hp : p.Fits within) (t : Text) :
    atBoundary (p.canonical ++ t) = true := by
  obtain ⟨s, ss, hsegs⟩ := List.exists_cons_of_ne_nil p.segments_ne_nil
  obtain ⟨c, he, hc, -⟩ := (hp s (by simp [hsegs])).1.exists_capitalize_eq
  rw [Path.canonical_eq hsegs, he]
  simp [DerivedQuery.atBoundary, isLower_eq_false_of_isUpper hc, isDigit_eq_false_of_isUpper hc]

theorem adds_segment {kind : Kind} (hk : kind = .pathStart ∨ kind = .pathPart) (hs : Spelled s) :
    d.Adds ⟨kind, capitalize s⟩ { d with segments := d.segments ++ [s] } := by
  obtain ⟨c, he, -, -⟩ := hs.exists_capitalize_eq
  have hadd : d.addSegment (capitalize s) = { d with segments := d.segments ++ [s] } := by
    rw [Draft.addSegment_of_ne_nil (by simp [he]), uncapitalize_capitalize hs]
  rcases hk with rfl | rfl <;> exact fun _ => congrArg Except.ok hadd

theorem segmentTail_parts (ss : List Text) (hs : Spelled s ∧ HoldsNoKeyword within [] s)
    (hlast : ss = [] → HoldsNoKeyword within r s) (hr : segmentContinues within.accepts r = false) :
    segmentTail within.accepts (s.tail ++ (partsText ss ++ r)) = s.tail := by
  obtain ⟨c, -, -, ha⟩ := hs.1.exists_capitalize_eq
  rw [segmentTail_tail_eq_iff]
  cases ss with
  | nil => exact ⟨hr, ha, hlast rfl⟩
  | cons s' ss =>
    have hsub : Subsumes [] (partsText (s' :: ss) ++ r) :=
      (detached_separator (capitalize s' ++ partsText ss ++ r)).subsumes rfl
    exact ⟨by simp [partsText, segmentContinues, separator], ha, hs.2.mono hsub⟩

theorem passes_parts (hw : within.isWithinPath = true) (ss : List Text)
    (hs : ∀ s ∈ ss, Spelled s ∧ HoldsNoKeyword within [] s)
    (hlast : ∀ s, ss.getLast? = some s → HoldsNoKeyword within r s)
    (hr : segmentContinues within.accepts r = false) :
    Passes settings b within d (partsText ss ++ r) within
      { d with segments := d.segments ++ ss } r := by
  induction ss generalizing d with
  | nil => simpa [partsText] using Passes.refl
  | cons s ss ih =>
    obtain ⟨hspell, hss⟩ := List.forall_mem_cons.mp hs
    have ht := segmentTail_parts ss hspell (fun he => hlast s (by simp [he])) hr
    obtain ⟨c, he, hc, -⟩ := hspell.1.exists_capitalize_eq
    have hlast' : ∀ s', ss.getLast? = some s' → HoldsNoKeyword within r s' := fun s' h =>
      hlast s' (by rw [List.getLast?_cons, h]; rfl)
    have hpart : Passes settings b within d (partsText (s :: ss) ++ r) within
        { d with segments := d.segments ++ [s] } (partsText ss ++ r) := by
      intro prev hp
      have hsep : Lexeme settings within b prev ⟨.separator, [separator]⟩
          (capitalize s ++ (partsText ss ++ r)) := by
        rw [he]
        exact .pathSeparator hw hp (isAlpha_of_isUpper hc)
      have hlex : Lexeme settings within b (some separator) ⟨.pathPart, capitalize s⟩
          (partsText ss ++ r) := by
        rw [he]
        exact .pathPart hw (isAlpha_of_isUpper hc) ht
      have hread := hsep.reads (Mode.next?_part hw).1 rfl (d := d) fun _ => rfl
      have hread' := hlex.reads (Mode.next?_part hw).2 rfl
        (adds_segment (d := d) (.inr rfl) hspell.1)
      have htext : partsText (s :: ss) ++ r =
          [separator] ++ (capitalize s ++ (partsText ss ++ r)) := by simp [partsText]
      rw [htext]
      exact ⟨_, hlex.previous_ne_separator nofun nofun nofun, hread.trans hread'⟩
    refine hpart.trans ?_
    simpa using ih (d := { d with segments := d.segments ++ [s] }) hss hlast'

/-- **A path** is cut as it was written. -/
theorem passes_path {p : Path} (ha : m.accepts .property = true) (hw : m.pathMode? = some within)
    (hc : Clear settings m (p.canonical ++ r)) (hp : p.Fits within)
    (hlast : ∀ s, p.segments.getLast? = some s → HoldsNoKeyword within r s)
    (hr : segmentContinues within.accepts r = false) (hd : d.segments = []) :
    Passes settings b m d (p.canonical ++ r) within { d with segments := p.segments } r := by
  have hwithin := Mode.isWithinPath_of_pathMode? hw
  obtain ⟨s, ss, hsegs⟩ := List.exists_cons_of_ne_nil p.segments_ne_nil
  rw [Path.Fits, hsegs] at hp
  rw [hsegs] at hlast
  rw [Path.canonical_eq hsegs] at hc ⊢
  obtain ⟨hspell, hss⟩ := List.forall_mem_cons.mp hp
  obtain ⟨c, he, hu, -⟩ := hspell.1.exists_capitalize_eq
  have hlast' : ∀ s', ss.getLast? = some s' → HoldsNoKeyword within r s' := fun s' h =>
    hlast s' (by rw [List.getLast?_cons, h]; rfl)
  have hfirst : Passes settings b m d (capitalize s ++ (partsText ss ++ r)) within
      { d with segments := d.segments ++ [s] } (partsText ss ++ r) := by
    intro prev hprev
    have ht := segmentTail_parts ss hspell (fun h => hlast s (by simp [h])) hr
    have hlex : Lexeme settings m b prev ⟨.pathStart, capitalize s⟩ (partsText ss ++ r) := by
      rw [List.append_assoc, he] at hc
      rw [he]
      exact .pathStart ha hw (by simp [startsPath, hu]) hc.1 hc.2 ht
    exact ⟨_, hlex.previous_ne_separator (by simp) (by simp) (by simp),
      hlex.reads hw rfl (adds_segment (.inl rfl) hspell.1)⟩
  have hparts : Passes settings b within { d with segments := d.segments ++ [s] }
      (partsText ss ++ r) within { d with segments := d.segments ++ [s] ++ ss } r :=
    passes_parts hwithin ss hss hlast' hr
  rw [List.append_assoc, hsegs]
  refine hfirst.trans ?_
  simpa [hd] using hparts

/-! ## Limits -/

theorem eq_zero_of_head?_toDigits {n : Nat} (h : (Nat.toDigits 10 n).head? = some '0') : n = 0 := by
  induction n using Nat.strongRecOn with
  | ind n ih =>
    by_cases hn : n < 10
    · rw [Nat.toDigits_of_lt_base hn] at h
      have key : ∀ n < 10, n.digitChar = '0' → n = 0 := by decide
      exact key n hn (by simpa using h)
    · rw [Nat.toDigits_of_base_le (by decide) (by omega),
        List.head?_append_of_ne_nil _ Nat.toDigits_ne_nil] at h
      have := ih (n / 10) (by omega) h
      omega

theorem limitOf?_toDigits {n : Nat} (hn : n < UInt32.size)
    (hz : n = 0 → settings.allowZeroCount = true) :
    limitOf? settings (Nat.toDigits 10 n) = some n := by
  have hlead : ¬ (1 < (Nat.toDigits 10 n).length ∧ (Nat.toDigits 10 n).head? = some '0') := by
    rintro ⟨hl, hh⟩
    rw [eq_zero_of_head?_toDigits hh] at hl
    exact absurd hl (by decide)
  have hzero : ¬ (n = 0 ∧ settings.allowZeroCount = false) := fun h => by simp [hz h.1] at h
  simp only [limitOf?, Nat.ofDigitChars_ten_toDigits, if_neg hlead, if_neg hzero,
    if_neg (Nat.not_le.mpr hn)]

theorem passes_limit {n : Nat} (ha : m.accepts .first = true) (hn : n < UInt32.size)
    (hz : n = 0 → settings.allowZeroCount = true) (hr : r.takeWhile Char.isDigit = []) :
    Passes settings b m d ("First".toList ++ Nat.toDigits 10 n ++ r) .limited
      { d with projection := some (.first n) } r := by
  intro prev _
  have hd : ∀ c ∈ Nat.toDigits 10 n, c.isDigit = true := fun c hc =>
    Nat.isDigit_of_mem_toDigits (by decide) (by decide) hc
  have hlex : Lexeme settings m b prev ⟨.first n, limitWord ++ Nat.toDigits 10 n⟩ r :=
    .limit ha Nat.toDigits_ne_nil (takeWhile_append_eq_iff.mpr ⟨hd, hr⟩) (limitOf?_toDigits hn hz)
  exact ⟨_, hlex.previous_ne_separator nofun nofun nofun,
    hlex.reads (if_pos ha) rfl fun _ => rfl⟩

/-! ## What completes a path -/

/-- A text in front of which a segment of a path in the mode is complete. -/
structure Stops (m : Mode) (r : Text) : Prop where
  detached : Detached r
  segment : segmentContinues m.accepts r = false

/-- The last segment of a path is found again in front of such a text. -/
theorem Path.Fits.last {p : Path} (hp : p.Fits m) (hr : Stops m r) :
    ∀ s, p.segments.getLast? = some s → HoldsNoKeyword m r s :=
  fun s hs => (hp s (List.mem_of_getLast? hs)).2.mono (hr.detached.subsumes rfl)

theorem stops_nil (m : Mode) : Stops m [] := ⟨by decide +kernel, rfl⟩

theorem segmentContinues_keyword (hk : k ∈ Keyword.table) (ha : m.accepts k.kind.category = true)
    (hr : atBoundary r = true)
    (he : k.kind = .operator .greaterThan ∨ k.kind = .operator .lessThan →
      ¬ Leads "Equal".toList r) : segmentContinues m.accepts (k.text ++ r) = false := by
  have hlong := Keyword.longestKeyword?_append hk ha hr he
  obtain ⟨c, cs, ht, hc⟩ := Keyword.exists_cons hk
  rw [ht, List.cons_append] at hlong ⊢
  simp [segmentContinues, isLower_eq_false_of_isUpper hc, isDigit_eq_false_of_isUpper hc, hlong]

theorem stops_keyword (hk : k ∈ Keyword.table) (ha : m.accepts k.kind.category = true)
    (hi : k.text ∉ innerWords) (hr : atBoundary r = true)
    (he : k.kind = .operator .greaterThan ∨ k.kind = .operator .lessThan →
      ¬ Leads "Equal".toList r) : Stops m (k.text ++ r) :=
  ⟨Keyword.detached hk hi r, segmentContinues_keyword hk ha hr he⟩

theorem Keyword.atBoundary_append (hk : k ∈ Keyword.table) (t : Text) :
    atBoundary (k.text ++ t) = true := by
  obtain ⟨c, cs, he, hc⟩ := Keyword.exists_cons hk
  simp [he, atBoundary, isLower_eq_false_of_isUpper hc, isDigit_eq_false_of_isUpper hc]

theorem clear_of_mode (hm : m = .criterionStart ∨ m = .orderStart ∨ m = .directed ∨ m = .aggregate)
    (t : Text) : Clear settings m t := by
  have key : ∀ k ∈ Keyword.table, ∀ m ∈ [Mode.criterionStart, .orderStart, .directed, .aggregate],
      m.accepts k.kind.category = false := by decide +kernel
  refine ⟨fun ha => ?_, longestKeyword?_eq_none_iff.mpr fun k hk ha => ?_⟩
  · rcases hm with rfl | rfl | rfl | rfl <;> cases ha
  · rw [key k hk m (by simpa using hm)] at ha
    cases ha

end Passes

end DerivedQuery
