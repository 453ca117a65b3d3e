import DerivedQuery.Proofs.Step

/-!
# The projection of a name

The words of a projection are read one by one, and then its path, segment by segment.

* `Words`: the words that have been read, and the mode they lead to;
* `CutsDown`: what of the text behind a path matters to it;
* `OpenPath`: the part of a path that has been read;
* **`OpenPath.fits`**: where it stops, it can be written.
-/

namespace DerivedQuery

/-! ## The words of a projection -/

/-- The words of a projection that have been read in front of its path, and the mode after them. -/
inductive Words (settings : Settings) (a : Action) : Option Projection → Mode → Prop
  | bare : Words settings a none (.afterAction a)
  | first (ha : a.isBulk = false) {n : Nat} (hn : n < UInt32.size)
    (hz : n = 0 → settings.allowZeroCount = true) : Words settings a (some (.first n)) .limited
  | firstDistinct (ha : a.isBulk = false) {n : Nat} (hn : n < UInt32.size)
    (hz : n = 0 → settings.allowZeroCount = true) :
    Words settings a (some (Projection.first n).withDistinct) .distinct
  | distinct (ha : a.isBulk = false) : Words settings a (some .distinctRecords) .distinct
  | aggregate (ha : a.isBulk = false) {k : ProjectionKind} (hk : k.isAggregate = true) :
    Words settings a (some { kind := k }) .aggregate

/-- The projection with the path that has been read behind its words. -/
def Projection.closed (r : Option Projection) (p : Path) : Projection :=
  match r with
  | some r => r.withProperty p
  | none => .ofProperty p

/-- The projection once `Distinct` has been read. -/
def Projection.once : Option Projection → Projection
  | some r => r.withDistinct
  | none => .distinctRecords

/-- The kinds of tokens that may follow the words of a projection. -/
def Kind.followsWords : Kind → Bool
  | all | first _ | distinct | aggregate _ | criteria | ordering | pathStart | finish => true
  | _ => false

section Words

variable {settings : Settings} {a : Action} {pr : Option Projection} {m m' : Mode} {b : Bool}
  {prev : Option Char} {r : Text} {n : Nat} {k : ProjectionKind} {kind : Kind}

theorem Words.worded (h : Words settings a pr m) (p : Path) :
    (Projection.closed pr p).Worded settings := by
  cases h with
  | bare => exact ⟨rfl, rfl⟩
  | first _ hn hz | firstDistinct _ hn hz => exact ⟨_, rfl, hn, hz⟩
  | distinct => exact ⟨rfl, rfl⟩
  | @aggregate _ k hk => cases k <;> first | exact ⟨rfl, rfl⟩ | cases hk

theorem Words.scopeMode_eq (h : Words settings a pr m) (p : Path) :
    a.scopeMode (some (Projection.closed pr p)) = m := by
  cases h with
  | bare | first | firstDistinct | distinct => rfl
  | @aggregate _ k hk => cases k <;> first | rfl | cases hk

theorem Words.fits {rr : Projection} (h : Words settings a (some rr) m) (hm : m ≠ .aggregate)
    (next : Text) : a.isBulk = false ∧ rr.Fits settings a next := by
  cases h with
  | first ha hn hz | firstDistinct ha hn hz => exact ⟨ha, ⟨_, rfl, hn, hz⟩, .inl rfl, nofun⟩
  | distinct ha => exact ⟨ha, ⟨rfl, rfl⟩, .inr (.inl rfl), nofun⟩
  | aggregate => exact absurd rfl hm

theorem Words.eq_none (h : Words settings a pr m) {c : Category}
    (hc : c = .first ∨ c = .aggregate ∨ c = .all) (ha : m.accepts c = true) :
    pr = none ∧ m = .afterAction a := by
  cases h with
  | bare => exact ⟨rfl, rfl⟩
  | _ => rcases hc with rfl | rfl | rfl <;> cases ha

theorem Mode.isBulk_eq_false {c : Category} (hc : c = .first ∨ c = .aggregate ∨ c = .distinct)
    (h : (Mode.afterAction a).accepts c = true) : a.isBulk = false := by
  revert h
  rcases hc with rfl | rfl | rfl <;> cases a <;> decide

theorem Words.limit (h : Words settings a pr m) (ha : m.accepts .first = true)
    (hn : n < UInt32.size) (hz : n = 0 → settings.allowZeroCount = true) :
    Words settings a (some (.first n)) .limited := by
  obtain ⟨-, rfl⟩ := h.eq_none (.inl rfl) ha
  exact .first (Mode.isBulk_eq_false (.inl rfl) ha) hn hz

theorem Words.fold (h : Words settings a pr m) (ha : m.accepts .aggregate = true)
    (hk : k.isAggregate = true) : Words settings a (some { kind := k }) .aggregate := by
  obtain ⟨-, rfl⟩ := h.eq_none (.inr (.inl rfl)) ha
  exact .aggregate (Mode.isBulk_eq_false (.inr (.inl rfl)) ha) hk

theorem Words.unique (h : Words settings a pr m) (ha : m.accepts .distinct = true) :
    Words settings a (some (Projection.once pr)) .distinct := by
  cases h with
  | bare => exact .distinct (Mode.isBulk_eq_false (.inr (.inr rfl)) ha)
  | first hb hn hz => exact .firstDistinct hb hn hz
  | firstDistinct | distinct | aggregate => cases ha

theorem lt_of_limitOf? {digits : Text} (h : limitOf? settings digits = some n) :
    n < UInt32.size ∧ (n = 0 → settings.allowZeroCount = true) := by
  rw [limitOf?] at h
  split_ifs at h with _ hlt hz
  obtain rfl := Option.some.inj h
  refine ⟨Nat.not_le.mp hlt, fun hn => ?_⟩
  by_contra ha
  exact hz ⟨hn, by simpa using ha⟩

theorem Lexeme.of_limit {p : Piece} (h : Lexeme settings m b prev p r) (hp : p.kind = .first n) :
    n < UInt32.size ∧ (n = 0 → settings.allowZeroCount = true) := by
  cases h with
  | limit _ _ _ hl =>
    obtain rfl := Kind.first.inj hp
    exact lt_of_limitOf? hl
  | keyword _ hk => exact absurd hp (kind_ne_of_longestKeyword? hk rfl)
  | _ => cases hp

theorem Lexeme.of_aggregate {p : Piece} (h : Lexeme settings m b prev p r)
    (hp : p.kind = .aggregate k) : k.isAggregate = true := by
  cases h with
  | @keyword _ _ _ kw _ _ hk =>
    have key : ∀ kw ∈ Keyword.table, ∀ k ∈ ProjectionKind.all, kw.kind = .aggregate k →
        k.isAggregate = true := by decide
    exact key kw (longestKeyword?_eq_some_iff.mp hk).1 k k.mem_all hp
  | _ => cases hp

theorem Words.mode_mem (h : Words settings a pr m) :
    m ∈ [Mode.narrow, .wide, .bulk, .limited, .distinct, .aggregate] := by
  cases h with
  | bare => cases a <;> decide
  | _ => decide

theorem Words.holdsPath_eq_false (h : Words settings a pr m) :
    m.holdsPath = false := by
  have key : ∀ m ∈ [Mode.narrow, .wide, .bulk, .limited, .distinct, .aggregate],
      m.holdsPath = false := by decide
  exact key m h.mode_mem

theorem Words.clause_eq (h : Words settings a pr m) :
    m.clause = .projection := by
  have key : ∀ m ∈ [Mode.narrow, .wide, .bulk, .limited, .distinct, .aggregate],
      m.clause = .projection := by decide
  exact key m h.mode_mem

theorem Words.next?_pathStart (h : Words settings a pr m)
    (hn : m.next? .pathStart = some m') : m' = .projected ∧ a.isBulk = false := by
  cases h with
  | bare => cases a <;> cases hn <;> exact ⟨rfl, rfl⟩
  | first ha | firstDistinct ha | distinct ha | aggregate ha =>
    exact ⟨(Option.some.inj hn).symm, ha⟩

theorem Words.of_next? (h : Words settings a pr m)
    (hn : m.next? kind = some m') : kind.followsWords = true := by
  have hm := h.mode_mem
  simp only [List.mem_cons, List.not_mem_nil, or_false] at hm
  cases kind with
  | all | first | distinct | aggregate | criteria | ordering | pathStart | finish => rfl
  | _ => rcases hm with rfl | rfl | rfl | rfl | rfl | rfl <;> cases hn

end Words

/-! ## The path of the projection -/

/-- What follows a projection may be cut down to its first word. -/
structure CutsDown (r s : Text) : Prop where
  subsumes : Subsumes r s
  atBoundary : atBoundary s = true
  limit : r ≠ [] → longestKeyword? endsLimit r = none →
    s ≠ [] ∧ longestKeyword? endsLimit s = none

theorem cutsDown_nil : CutsDown [] [] := ⟨.refl [], rfl, fun h => absurd rfl h⟩

/-- The segments of a path as they are written. -/
def pathText (segments : List Text) : Text := [separator].intercalate (segments.map capitalize)

/-- A path that began in the mode `m` has been read up to the character before the text. -/
structure OpenPath (settings : Settings) (m : Mode) (prev : Option Char) (r : Text)
    (segments : List Text) : Prop where
  clear : Clear settings m (pathText segments ++ if prev = some separator then [separator] else r)
  last : prev ≠ some separator → ∀ s, segments.getLast? = some s → HoldsNoKeyword .projected r s
  rest : prev = some separator → r ≠ []

section OpenPath

variable {settings : Settings} {m m' : Mode} {b : Bool} {prev : Option Char} {r s t : Text}
  {segments : List Text} {p : Piece} {k : Keyword}

theorem pathText_append (h : segments ≠ []) :
    pathText (segments ++ [s]) = pathText segments ++ separator :: capitalize s := by
  induction segments with
  | nil => exact absurd rfl h
  | cons s₁ ss ih =>
    cases ss with
    | nil => simp [pathText, List.intercalate]
    | cons s₂ ss =>
      have ih := ih (List.cons_ne_nil s₂ ss)
      simp only [pathText, List.map_cons, List.map_append, List.cons_append,
        List.intercalate_cons_cons] at ih ⊢
      rw [ih]
      simp

theorem pathText_ne_nil (h : segments ≠ []) (hs : ∀ s ∈ segments, s ≠ []) :
    pathText segments ≠ [] := by
  cases segments with
  | nil => exact absurd rfl h
  | cons s ss =>
    obtain ⟨c, cs, rfl⟩ := List.exists_cons_of_ne_nil (hs s List.mem_cons_self)
    cases ss <;> simp [pathText, List.intercalate, capitalize]

theorem CutsDown.of_keyword (hk : k ∈ Keyword.table) (ha : endsLimit k.kind.category = true)
    (hr : DerivedQuery.atBoundary r = true) (hs : Subsumes (k.text ++ r) s)
    (hb : DerivedQuery.atBoundary s = true) : CutsDown (k.text ++ r) s :=
  ⟨hs, hb, fun _ h => absurd h (longestKeyword?_endsLimit_ne_none hk ha hr)⟩

/-- Of the word By a property can make a longer word, but of nothing behind it. -/
theorem cutsDown_criteria (hr : atBoundary r = true) :
    CutsDown ("By".toList ++ r) "By".toList :=
  .of_keyword (Keyword.mem_table .criteria rfl) rfl hr (.of_append _ hr) rfl

theorem cutsDown_ordering (hr : atBoundary r = true) : CutsDown ("OrderBy".toList ++ r) [] :=
  .of_keyword (Keyword.mem_table .ordering rfl) rfl hr (.of_append [] rfl) rfl

theorem Clear.separator {u : Text} (hu : u ≠ []) (h : Clear settings m (u ++ separator :: r))
    (s : Text) : Clear settings m (u ++ separator :: s) := by
  refine h.mono ((detached_separator s).subsumes rfl) hu rfl fun _ _ => ?_
  exact ⟨List.cons_ne_nil _ s, longestKeyword?_cons_eq_none s (by decide)⟩

theorem OpenPath.start (hs : SegmentCut settings m prev m' p r) (hm : m' = .projected)
    (hk : p.kind = .pathStart) (hp : prev ≠ some separator)
    (hl : p.text.getLast?.or prev ≠ some separator) :
    OpenPath settings m (p.text.getLast?.or prev) r [uncapitalize p.text] := by
  obtain ⟨hc, he⟩ := hs.start hk
  refine ⟨?_, fun _ s h => ?_, fun h => absurd h hl⟩
  · rw [if_neg hl]
    simpa [pathText, List.intercalate, he hp] using hc
  · obtain rfl := Option.some.inj h
    exact hm ▸ hs.holdsNoKeyword

theorem OpenPath.separator (h : OpenPath settings m prev (separator :: r) segments)
    (hp : prev ≠ some separator) (hne : pathText segments ≠ []) (hr : r ≠ []) :
    OpenPath settings m (some separator) r segments := by
  refine ⟨?_, fun h => absurd rfl h, fun _ => hr⟩
  have hc := h.clear
  rw [if_neg hp] at hc
  rw [if_pos rfl]
  exact hc.separator hne []

theorem OpenPath.part (h : OpenPath settings m (some DerivedQuery.separator) t segments)
    (hs : SegmentCut settings m' prev .projected p r) (hne : pathText segments ≠ [])
    (hsegs : segments ≠ []) (hl : p.text.getLast?.or prev ≠ some DerivedQuery.separator) :
    OpenPath settings m (p.text.getLast?.or prev) r (segments ++ [uncapitalize p.text]) := by
  refine ⟨?_, fun _ s h => ?_, fun h => absurd h hl⟩
  · have hc := h.clear
    rw [if_pos rfl] at hc
    rw [if_neg hl, pathText_append hsegs, List.append_assoc]
    exact hc.separator hne _
  · rw [List.getLast?_concat] at h
    obtain rfl := Option.some.inj h
    exact hs.holdsNoKeyword

/-- A path that has been read is found again in front of the word it stopped at. -/
theorem OpenPath.fits {q : Path} (h : OpenPath settings m prev r q.segments)
    (hp : prev ≠ some DerivedQuery.separator) (hx : CutsDown r s) :
    (∀ t, q.segments.getLast? = some t → HoldsNoKeyword .projected s t) ∧
      Clear settings m (q.canonical ++ s) := by
  refine ⟨fun t ht => (h.last hp t ht).mono hx.subsumes, ?_⟩
  have hc := h.clear
  rw [if_neg hp] at hc
  exact hc.mono hx.subsumes (pathText_ne_nil q.segments_ne_nil q.segment_ne_nil) hx.atBoundary
    hx.limit

end OpenPath

end DerivedQuery
