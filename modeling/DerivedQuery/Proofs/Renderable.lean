import DerivedQuery.Canonical
import DerivedQuery.Proofs.Exchange

/-!
# Queries that can be written

A query has a name that stands for it if its segments are spelled as segments are, hold no keyword
where a scan would find one, and stand where a path may begin.

* `Spelled`, `HoldsNoKeyword`, `Path.Fits`: segments and paths that are found again;
* `Clear`: a text with which a path may begin;
* `Action.scopeMode`, `Projection.Worded`, `Projection.Fits`: projections;
* `Joined`: how conditions are joined;
* **`Query.Renderable`**.
-/

namespace DerivedQuery

/-! ## Segments -/

/-- A segment as a query holds it: a lower-case letter, then letters and digits. -/
def Spelled (s : Text) : Prop :=
  ∃ c cs, s = c :: cs ∧ c.isLower = true ∧ ∀ d ∈ cs, d.isAlphanum = true

section Segment

variable {s : Text} {c : Char} {cs : Text}

instance (s : Text) : Decidable (Spelled s) :=
  match s with
  | [] => isFalse nofun
  | c :: cs =>
    decidable_of_iff (c.isLower = true ∧ cs.all Char.isAlphanum = true)
      ⟨fun h => ⟨c, cs, rfl, h.1, List.all_eq_true.mp h.2⟩,
        fun ⟨_, _, he, hc, hcs⟩ => by cases he; exact ⟨hc, List.all_eq_true.mpr hcs⟩⟩

theorem isAlpha_of_isLower (h : c.isLower = true) : c.isAlpha = true := by simp [Char.isAlpha, h]

theorem isAlpha_of_isUpper (h : c.isUpper = true) : c.isAlpha = true := by simp [Char.isAlpha, h]

theorem uncapitalize_capitalize (h : Spelled s) : uncapitalize (capitalize s) = s := by
  obtain ⟨c, cs, rfl, hc, -⟩ := h
  have hu : ¬ c.isUpper = true := fun hu => Char.not_isLower_of_isUpper hu hc
  rw [capitalize, uncapitalize, Char.toLower_toUpper_eq_toLower, Char.toLower_eq_of_not_isUpper hu]

theorem capitalize_uncapitalize (h : c.isUpper = true) :
    capitalize (uncapitalize (c :: cs)) = c :: cs := by
  have hl : ¬ c.isLower = true := Char.not_isLower_of_isUpper h
  rw [uncapitalize, capitalize, Char.toUpper_toLower_eq_toUpper, Char.toUpper_eq_of_not_isLower hl]

theorem Spelled.exists_capitalize_eq (h : Spelled s) :
    ∃ c, capitalize s = c :: s.tail ∧ c.isUpper = true ∧ ∀ d ∈ s.tail, d.isAlphanum = true := by
  obtain ⟨c, cs, rfl, hc, hcs⟩ := h
  exact ⟨c.toUpper, rfl, by rw [Char.isUpper_toUpper_eq_isAlpha, isAlpha_of_isLower hc], hcs⟩

theorem spelled_uncapitalize (hc : c.isAlpha = true) (hcs : ∀ d ∈ cs, d.isAlphanum = true) :
    Spelled (uncapitalize (c :: cs)) :=
  ⟨c.toLower, cs, rfl, by rw [Char.isLower_toLower_eq_isAlpha, hc], hcs⟩

end Segment

/-- No keyword that may end the segment begins within it, in front of the text that follows. -/
def HoldsNoKeyword (m : Mode) (next s : Text) : Prop :=
  ∀ w, w <:+ s.tail → w ≠ [] → longestKeyword? m.accepts (w ++ next) = none

instance (m : Mode) (next s : Text) : Decidable (HoldsNoKeyword m next s) :=
  decidable_of_iff (∀ w ∈ s.tail.tails, w ≠ [] → longestKeyword? m.accepts (w ++ next) = none)
    (forall_congr' fun w => by rw [List.mem_tails])

/-- Every segment is found again in the mode of the path. -/
def Path.Fits (m : Mode) (p : Path) : Prop :=
  ∀ s ∈ p.segments, Spelled s ∧ HoldsNoKeyword m [] s

theorem segmentTail_tail_eq_iff {m : Mode} {r s : Text} :
    segmentTail m.accepts (s.tail ++ r) = s.tail ↔
      segmentContinues m.accepts r = false ∧ (∀ d ∈ s.tail, d.isAlphanum = true) ∧
        HoldsNoKeyword m r s := by
  rw [segmentTail_append_eq_iff]
  refine and_congr_right fun _ => ⟨fun h => ⟨fun d hd => ?_, fun w hw hne => ?_⟩, ?_⟩
  · obtain ⟨u, v, he⟩ := List.append_of_mem hd
    exact isAlphanum_of_segmentContinues (h (d :: v) (he ▸ List.suffix_append u _) (by simp))
  · have hc := h w hw hne
    cases w with
    | nil => exact absurd rfl hne
    | cons d ds =>
      -- the characters of a segment that are not in upper case begin no keyword
      cases hu : d.isUpper with
      | false => exact longestKeyword?_cons_eq_none _ hu
      | true =>
        simpa [segmentContinues, isLower_eq_false_of_isUpper hu, isDigit_eq_false_of_isUpper hu, hu]
          using hc
  · rintro ⟨ha, h⟩ w hw hne
    have hk := h w hw hne
    cases w with
    | nil => exact absurd rfl hne
    | cons d ds =>
      have hd := ha d (hw.subset List.mem_cons_self)
      simp only [Char.isAlphanum, Char.isAlpha, Bool.or_eq_true] at hd
      rw [List.cons_append] at hk
      rw [List.cons_append, segmentContinues, hk]
      simp only [Option.isNone_none, Bool.and_true, Bool.or_eq_true]
      tauto

/-- A path may begin with the text: neither a limit nor a keyword is read there. -/
def Clear (settings : Settings) (m : Mode) (t : Text) : Prop :=
  NoLimit settings m t ∧ longestKeyword? m.accepts t = none

instance (settings : Settings) (m : Mode) (t : Text) : Decidable (Clear settings m t) := by
  unfold Clear NoLimit
  infer_instance

section Following

variable {settings : Settings} {m : Mode} {r s t u : Text}

theorem HoldsNoKeyword.mono (hsub : Subsumes r t) (h : HoldsNoKeyword m r s) :
    HoldsNoKeyword m t s :=
  fun w hw hne => hsub.longestKeyword?_eq_none hne (h w hw hne)

/-- What stands before a limit or a keyword in one text also does in the other. -/
theorem Clear.mono (hsub : Subsumes r s) (hu : u ≠ []) (hs : atBoundary s = true)
    (hl : r ≠ [] → longestKeyword? endsLimit r = none →
      s ≠ [] ∧ longestKeyword? endsLimit s = none)
    (h : Clear settings m (u ++ r)) : Clear settings m (u ++ s) :=
  ⟨fun ha => hsub.limitRun?_eq_none hu hs hl (h.1 ha), hsub.longestKeyword?_eq_none hu h.2⟩

theorem Clear.of_settings {settings' : Settings} (h : Clear settings m t) :
    Clear settings' m t :=
  ⟨fun ha => limitRun?_eq_none_iff.mpr (limitRun?_eq_none_iff.mp (h.1 ha)), h.2⟩

/-- A text that is cut short at a boundary completes no more words. -/
theorem Subsumes.of_append (u : Text) (hr : DerivedQuery.atBoundary r = true) :
    Subsumes (u ++ r) u := by
  rintro w - ⟨x, rfl, hx⟩
  refine ⟨x ++ r, List.append_assoc w x r, ?_⟩
  cases x with
  | nil => exact hr
  | cons c cs => exact hx

theorem detached_append (hu : u ≠ []) (hb : DerivedQuery.atBoundary u = true)
    (h : ∀ w ∈ innerWords, ¬ w <+: u ∧ ¬ u <+: w) (t : Text) : Detached (u ++ t) := by
  refine ⟨by rwa [atBoundary_append hu], fun w hw hl => ?_⟩
  rcases List.prefix_or_prefix_of_prefix hl.isPrefix (List.prefix_append u t) with hp | hp
  · exact (h w hw).1 hp
  · exact (h w hw).2 hp

theorem detached_separator (t : Text) : Detached (separator :: t) :=
  detached_append (u := [separator]) (by decide) rfl (by decide +kernel) t

theorem Keyword.detached {k : Keyword} (hk : k ∈ Keyword.table) (hi : k.text ∉ innerWords)
    (t : Text) : Detached (k.text ++ t) := by
  have key : ∀ k ∈ Keyword.table, k.text ∉ innerWords → k.text ≠ [] ∧
      DerivedQuery.atBoundary k.text = true ∧
        ∀ w ∈ innerWords, ¬ w <+: k.text ∧ ¬ k.text <+: w := by decide +kernel
  obtain ⟨hne, hb, h⟩ := key k hk hi
  exact detached_append hne hb h t

theorem IsTail.eq_criteria {w : Text} (hw : IsTail w) (h : Leads w ("By".toList ++ t)) :
    w = [] ∨ w = "By".toList := by
  have key : ∀ w ∈ innerWords, w <+: "By".toList ∨ "By".toList <+: w → w = "By".toList := by
    decide +kernel
  refine (hw.eq_nil_or_mem rfl h).imp_right fun hi => key w hi ?_
  exact List.prefix_or_prefix_of_prefix h.isPrefix (List.prefix_append "By".toList t)

theorem subsumes_criteria (t : Text) : Subsumes "By".toList ("By".toList ++ t) := by
  intro w hw hl
  rcases hw.eq_criteria hl with rfl | rfl <;> decide

/-- The last letters of a segment that are read as `OrderBy` in front of `By`. -/
def orderWord : Text := "Order".toList

/-- In front of the word By, only the word Order becomes part of a keyword. -/
theorem safe_criteria (hr : atBoundary r = true) (hu : u ≠ []) (ho : u ≠ orderWord) :
    Safe r ("By".toList ++ t) u := by
  have key : ∀ word ∈ words, word ≠ "By".toList → "By".toList <:+ word →
      word = orderWord ++ "By".toList := by decide +kernel
  intro word hword hl
  -- a word that leads the whole ends within the letters, at their end, or with the word By
  rcases leads_append_cases hl with ⟨v, hv, rfl, hb⟩ | ⟨w, rfl, hw⟩
  · refine ⟨v ++ r, List.append_assoc _ _ _, ?_⟩
    rwa [atBoundary_append hv] at hb ⊢
  · rcases IsTail.eq_criteria ⟨u, hu, hword⟩ hw with rfl | rfl
    · rw [List.append_nil]
      exact leads_append_iff.mpr hr
    · refine absurd (List.append_cancel_right (key _ hword ?_ (List.suffix_append _ _))) ho
      intro he
      exact hu (List.append_left_eq_self.mp he)

theorem longestKeyword?_endsLimit_ne_none {k : Keyword} (hk : k ∈ Keyword.table)
    (ha : endsLimit k.kind.category = true) (hr : atBoundary r = true) :
    longestKeyword? endsLimit (k.text ++ r) ≠ none :=
  fun h => longestKeyword?_eq_none_iff.mp h k hk ha (leads_append_iff.mpr hr)

end Following

/-! ## Projections -/

/-- The mode after the words of a projection, where its path may begin. -/
def Action.scopeMode (a : Action) : Option Projection → Mode
  | none => .afterAction a
  | some r =>
    match r.kind with
    | .first => if r.distinct then .distinct else .limited
    | .distinct => .distinct
    | .property => .afterAction a
    | .max | .min | .sum | .avg => .aggregate

/-- The words of a projection can be written: a limit has a number that can be read, and nothing is
said that no word stands for. -/
def Projection.Worded (settings : Settings) (r : Projection) : Prop :=
  match r.kind with
  | .first => ∃ n, r.count = some n ∧ n < UInt32.size ∧ (n = 0 → settings.allowZeroCount = true)
  | .distinct => r.count = none ∧ r.distinct = true
  | _ => r.count = none ∧ r.distinct = false

/-- A projection that is no limit and no `Distinct` has a path. -/
def Projection.NamesPath (r : Projection) : Prop :=
  r.kind = .first ∨ r.kind = .distinct ∨ r.property ≠ none

/-- A projection that is found again after the action and in front of the text that follows. -/
structure Projection.Fits (settings : Settings) (a : Action) (next : Text) (r : Projection) :
    Prop where
  worded : r.Worded settings
  namesPath : r.NamesPath
  path : ∀ p, r.property = some p → p.Fits .projected ∧
    (∀ s, p.segments.getLast? = some s → HoldsNoKeyword .projected next s) ∧
      Clear settings (a.scopeMode (some r)) (p.canonical ++ next)

/-! ## Queries -/

/-- The first condition is joined to none, and every other one to the one before it. -/
def Joined : List CriteriaItem → Prop
  | [] => True
  | i :: is => i.connective = none ∧ ∀ j ∈ is, j.connective ≠ none

/-- The word behind the projection with which a property could make a longer word. -/
def Query.afterScope (q : Query) : Text := if q.criteria = [] then [] else "By".toList

/-- **A query that some name stands for.** -/
structure Query.Renderable (settings : Settings) (q : Query) : Prop where
  bulk : q.isBulk = true → q.projection = none ∧ q.ordering = []
  projection : ∀ r, q.projection = some r → r.Fits settings q.action q.afterScope
  joined : Joined q.criteria
  criteria : ∀ i ∈ q.criteria, i.condition.property.Fits .criterion
  ordering : ∀ i ∈ q.ordering, i.property.Fits .ordered

theorem Query.Renderable.of_separatedOrderItems {settings : Settings} {q : Query} (b : Bool)
    (h : q.Renderable settings) : q.Renderable { settings with separatedOrderItems := b } where
  bulk := h.bulk
  projection r hr :=
    have hf := h.projection r hr
    { worded := hf.worded
      namesPath := hf.namesPath
      path := fun p hp => (hf.path p hp).imp_right fun hl => hl.imp_right Clear.of_settings }
  joined := h.joined
  criteria := h.criteria
  ordering := h.ordering

end DerivedQuery
