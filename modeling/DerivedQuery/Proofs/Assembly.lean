import DerivedQuery.Proofs.Transcript

/-!
# Drafts and modes

The table of modes is finer than the clauses of a draft. What a draft needs before a clause is
closed, the mode has seen to.

* `Mode.clause`, `Mode.holdsPath`: what a mode says of the draft; `Kind.endsScope`;
* `Draft.Fits`: the draft is as its mode says; **`Draft.Fits.add`**: every token keeps it so;
* `Draft.Adds`, `Reads`: pieces are cut and added;
* **`parse_eq_ok_iff`**: the query of a name is what its lexemes add up to;
* **`parse_agrees_with_tokenize`**: a name is rejected only where it cannot be cut.
-/

namespace DerivedQuery

/-! ## What a mode says of a draft -/

/-- The clause that is read in a mode. -/
def Mode.clause : Mode → Clause
  | criterionStart | criterion | negated | caseless | negatedCaseless | caselessNegated
  | compared => .criteria
  | orderStart | ordered | directed => .ordering
  | _ => .projection

/-- Whether a path has been read that is not closed yet. -/
def Mode.holdsPath : Mode → Bool
  | projected | criterion | negated | caseless | negatedCaseless | caselessNegated | compared
  | ordered => true
  | _ => false

/-- The kinds of tokens at which a projection ends. -/
def Kind.endsScope : Kind → Bool
  | criteria | ordering | finish => true
  | _ => false

/-- The draft is as the mode says: it reads the clause of the mode, it holds a path where the mode
does, no segment of which is empty, and there is an action once one has been read. -/
structure Draft.Fits (m : Mode) (d : Draft) : Prop where
  clause : m ≠ .done → d.clause = m.clause
  segments : d.segments = [] ↔ m.holdsPath = false
  segment_ne_nil : ∀ s ∈ d.segments, s ≠ []
  action : m ≠ .initial → d.action ≠ none

section Table

variable {m m' : Mode}

theorem Mode.of_accepts_connective (h : m.accepts .connective = true) :
    m.clause = .criteria ∧ m.holdsPath = true := by revert h; cases m <;> decide

theorem Mode.of_accepts_direction (h : m.accepts .direction = true) :
    m.clause = .ordering ∧ m.holdsPath = true := by revert h; cases m <;> decide

theorem Mode.of_accepts_criteria (h : m.accepts .criteria = true) : m.clause = .projection := by
  revert h; cases m <;> decide

theorem Mode.of_accepts_ordering (h : m.accepts .ordering = true) :
    m.clause = .projection ∨ m.clause = .criteria ∧ m.holdsPath = true := by
  revert h; cases m <;> decide

theorem Mode.of_accepts_finish (h : m.accepts .finish = true) :
    m.clause = .projection ∨ m.clause = .criteria ∧ m.holdsPath = true ∨ m.clause = .ordering := by
  revert h; cases m <;> decide

theorem Mode.of_next?_segment {k : Kind} (hk : k = .pathStart ∨ k = .pathPart)
    (h : m.next? k = some m') :
    m ≠ .initial ∧ m ≠ .done ∧ m'.clause = m.clause ∧ m'.holdsPath = true := by
  rcases hk with rfl | rfl <;> revert h <;>
    cases m <;> simp only [next?, Option.some.injEq, reduceCtorEq, false_implies] <;>
    rintro rfl <;> decide

/-- The kinds of tokens that are noted in a draft and neither go on with a path nor close one. -/
def Kind.isMark : Kind → Bool
  | all | first _ | distinct | aggregate _ | separator | negation | ignoreCase | operator _ => true
  | _ => false

theorem Mode.of_next?_mark {k : Kind} (hk : k.isMark = true) (h : m.next? k = some m') :
    m ≠ .initial ∧ m ≠ .done ∧ m'.clause = m.clause ∧ m'.holdsPath = m.holdsPath := by
  cases k <;> cases hk <;> revert h <;>
    cases m <;> simp [next?, accepts, expected] <;> rintro rfl <;> decide

end Table

/-! ## One token -/

theorem map_eq_ok_iff {ε α β : Type} {x : Except ε α} {f : α → β} {b : β} :
    x.map f = .ok b ↔ ∃ a, x = .ok a ∧ f a = b := by
  cases x with
  | error e => simp [Except.map]
  | ok a => simp [Except.map]

/-- The draft takes the piece, wherever in a name it stands. -/
def Draft.Adds (d : Draft) (p : Piece) (d' : Draft) : Prop :=
  ∀ n, d.add ⟨p.kind, p.text, n⟩ = .ok d'

namespace Draft

variable {m m' : Mode} {d d' : Draft} {p : Path} {piece : Piece}

theorem path_eq_ok_iff {n : Nat} : d.path n = .ok p ↔ p.segments = d.segments := by
  rw [← Path.ofSegments?_eq_some_iff, path]
  cases Path.ofSegments? d.segments <;> simp

theorem closeCondition_eq_ok (h : p.segments = d.segments) (n : Nat) :
    d.closeCondition n = .ok { d with
      segments := [], operator := none, negated := false, ignoreCase := false, connective := none
      criteria := d.criteria ++ [⟨d.connective, d.condition p⟩] } := by
  rw [closeCondition, path_eq_ok_iff.mpr h]
  rfl

theorem closeOrderItem_eq_ok (h : p.segments = d.segments) (r : Direction) (n : Nat) :
    d.closeOrderItem r n =
      .ok { d with segments := [], ordering := d.ordering ++ [⟨p, r⟩] } := by
  rw [closeOrderItem, path_eq_ok_iff.mpr h]
  rfl

theorem close_of_criteria (h : d.clause = .criteria) (n : Nat) :
    d.close n = d.closeCondition n := by rw [close, h]

theorem close_of_ordering (h : d.clause = .ordering) (hs : d.segments ≠ []) (n : Nat) :
    d.close n = d.closeOrderItem .default n := by
  rw [close, h]
  exact if_neg hs

theorem addSegment_of_ne_nil {text : Text} (h : text ≠ []) :
    d.addSegment text = { d with segments := d.segments ++ [uncapitalize text] } := if_neg h

theorem uncapitalize_ne_nil {text : Text} (h : text ≠ []) : uncapitalize text ≠ [] := by
  cases text with
  | nil => exact absurd rfl h
  | cons c cs => exact List.cons_ne_nil _ _

theorem closeProjection_eq (d : Draft) : d.closeProjection.segments = [] ∧
    d.closeProjection.clause = d.clause ∧ d.closeProjection.action = d.action := by
  unfold closeProjection
  split <;> exact ⟨rfl, rfl, rfl⟩

namespace Fits

theorem exists_path (h : d.Fits m) (hm : m.holdsPath = true) :
    ∃ p : Path, p.segments = d.segments :=
  ⟨⟨d.segments, fun he => by simp [h.segments.mp he] at hm, h.segment_ne_nil⟩, rfl⟩

/-- A clause that holds no path, or has one, can be closed. -/
theorem exists_close (h : d.Fits m) (hm : m ≠ .done)
    (hc : m.clause = .projection ∨ m.clause = .criteria ∧ m.holdsPath = true ∨
      m.clause = .ordering) :
    ∃ d', (∀ n, d.close n = .ok d') ∧ d'.segments = [] ∧ d'.action = d.action := by
  rw [← h.clause hm] at hc
  rcases hc with hc | ⟨hc, hp⟩ | hc
  · obtain ⟨h₁, -, h₃⟩ := d.closeProjection_eq
    exact ⟨d.closeProjection, fun n => by rw [close, hc], h₁, h₃⟩
  · obtain ⟨p, hp⟩ := h.exists_path hp
    exact ⟨_, fun n => (close_of_criteria hc n).trans (closeCondition_eq_ok hp n), rfl, rfl⟩
  · by_cases hs : d.segments = []
    · exact ⟨d, fun n => by simp only [close, hc, hs, if_true], hs, rfl⟩
    · obtain ⟨p, hp⟩ := h.exists_path (by simpa using mt h.segments.mpr hs)
      exact ⟨_, fun n => (close_of_ordering hc hs n).trans (closeOrderItem_eq_ok hp _ n), rfl, rfl⟩

/-- A draft without an open path is as a mode says that holds none. -/
theorem of_closed {d' : Draft} (hs : d'.segments = []) (ha : d'.action ≠ none)
    (hc : m' ≠ .done → d'.clause = m'.clause) (hm : m'.holdsPath = false) : d'.Fits m' :=
  ⟨hc, by simp [hs, hm], by simp [hs], fun _ => ha⟩

theorem addSegment (h : d.Fits m) {text : Text} (ht : text ≠ []) (hi : m ≠ .initial)
    (hd : m ≠ .done) (hc : m'.clause = m.clause) (hp : m'.holdsPath = true) :
    (d.addSegment text).Fits m' := by
  rw [addSegment_of_ne_nil ht]
  refine ⟨fun _ => (h.clause hd).trans hc.symm, by simp [hp], ?_, fun _ => h.action hi⟩
  intro s hs
  rcases List.mem_append.mp hs with hs | hs
  · exact h.segment_ne_nil s hs
  · rw [List.mem_singleton.mp hs]
    exact uncapitalize_ne_nil ht

theorem of_mark {k : Kind} {d' : Draft} (h : d.Fits m) (hk : k.isMark = true)
    (hn : m.next? k = some m') (hs : d'.segments = d.segments) (hc : d'.clause = d.clause)
    (ha : d'.action = d.action) : d'.Fits m' := by
  obtain ⟨hi, hd, hclause, hpath⟩ := Mode.of_next?_mark hk hn
  refine ⟨fun _ => ?_, by rw [hs, hpath, h.segments], by rw [hs]; exact h.segment_ne_nil,
    fun _ => by rw [ha]; exact h.action hi⟩
  rw [hc, hclause, h.clause hd]

/-- **Every token that the table of modes admits can be added**, and the draft is then as the next
mode says. -/
theorem add (h : d.Fits m) (hn : m.next? piece.kind = some m')
    (ht : piece.kind.category = .property → piece.text ≠ []) :
    ∃ d', d.Adds piece d' ∧ d'.Fits m' := by
  obtain ⟨kind, text⟩ := piece
  dsimp only at hn ht
  cases kind with
  | preamble =>
    obtain ⟨rfl, rfl⟩ : m = .initial ∧ m' = .initial := by
      rw [Mode.next?] at hn
      split at hn <;> simp_all
    exact ⟨d, fun _ => rfl, h⟩
  | action a =>
    obtain ⟨rfl, rfl⟩ : m = .initial ∧ m' = .afterAction a := by
      rw [Mode.next?] at hn
      split at hn <;> simp_all
    have hs : d.segments = [] := h.segments.mpr rfl
    have hc : d.clause = .projection := h.clause (by decide)
    refine ⟨_, fun _ => rfl, of_closed hs (Option.some_ne_none a) (fun _ => hc.trans ?_) ?_⟩ <;>
      cases a <;> rfl
  | criteria =>
    obtain ⟨ha, ⟨⟩⟩ := Option.ite_none_right_eq_some.mp hn
    obtain ⟨hi, hd⟩ := Mode.ne_of_accepts (by decide) ha
    obtain ⟨d', hd', hs, hact⟩ := h.exists_close hd (.inl (Mode.of_accepts_criteria ha))
    refine ⟨{ d' with clause := .criteria }, fun n => ?_,
      of_closed hs (hact.trans_ne (h.action hi)) (fun _ => rfl) rfl⟩
    exact congrArg (Except.map _) (hd' n)
  | ordering =>
    obtain ⟨ha, ⟨⟩⟩ := Option.ite_none_right_eq_some.mp hn
    obtain ⟨hi, hd⟩ := Mode.ne_of_accepts (by decide) ha
    obtain ⟨d', hd', hs, hact⟩ :=
      h.exists_close hd ((Mode.of_accepts_ordering ha).imp_right .inl)
    refine ⟨{ d' with clause := .ordering }, fun n => ?_,
      of_closed hs (hact.trans_ne (h.action hi)) (fun _ => rfl) rfl⟩
    exact congrArg (Except.map _) (hd' n)
  | pathStart =>
    obtain ⟨hi, hd, hc, hp⟩ := Mode.of_next?_segment (.inl rfl) hn
    exact ⟨_, fun _ => rfl, h.addSegment (ht rfl) hi hd hc hp⟩
  | pathPart =>
    obtain ⟨hi, hd, hc, hp⟩ := Mode.of_next?_segment (.inr rfl) hn
    exact ⟨_, fun _ => rfl, h.addSegment (ht rfl) hi hd hc hp⟩
  | connective k =>
    obtain ⟨ha, ⟨⟩⟩ := Option.ite_none_right_eq_some.mp hn
    obtain ⟨hi, hd⟩ := Mode.ne_of_accepts (by decide) ha
    obtain ⟨hc, hp⟩ := Mode.of_accepts_connective ha
    obtain ⟨p, hp⟩ := h.exists_path hp
    exact ⟨_, fun n => congrArg (Except.map _) (closeCondition_eq_ok hp n),
      of_closed rfl (h.action hi) (fun _ => (h.clause hd).trans hc) rfl⟩
  | direction r =>
    obtain ⟨ha, ⟨⟩⟩ := Option.ite_none_right_eq_some.mp hn
    obtain ⟨hi, hd⟩ := Mode.ne_of_accepts (by decide) ha
    obtain ⟨hc, hp⟩ := Mode.of_accepts_direction ha
    obtain ⟨p, hp⟩ := h.exists_path hp
    exact ⟨_, closeOrderItem_eq_ok hp r,
      of_closed rfl (h.action hi) (fun _ => (h.clause hd).trans hc) rfl⟩
  | finish =>
    obtain ⟨ha, ⟨⟩⟩ := Option.ite_none_right_eq_some.mp hn
    obtain ⟨hi, hd⟩ := Mode.ne_of_accepts (by decide) ha
    obtain ⟨d', hd', hs, hact⟩ := h.exists_close hd (Mode.of_accepts_finish ha)
    exact ⟨d', hd', of_closed hs (hact.trans_ne (h.action hi)) (fun hne => absurd rfl hne) rfl⟩
  | all | first k | distinct | aggregate k | separator | negation | ignoreCase | operator o =>
    exact ⟨_, fun _ => rfl, h.of_mark rfl hn rfl rfl rfl⟩

end Fits

end Draft

/-! ## Whole names -/

/-- Pieces are cut off one after the other, and the draft takes each of them. -/
inductive Reads (settings : Settings) : Cursor → Draft → Cursor → Draft → Prop
  | refl (c d) : Reads settings c d c d
  | step {c d p c' d' c'' d''} (hc : Cut settings c p c') (hd : d.Adds p d')
    (t : Reads settings c' d' c'' d'') : Reads settings c d c'' d''

section Names

variable {settings : Settings} {c c' c'' : Cursor} {d d' d'' : Draft} {p : Piece}
  {ps : List Piece} {name : Text} {q : Query}

theorem Reads.trans (h : Reads settings c d c' d') (h' : Reads settings c' d' c'' d'') :
    Reads settings c d c'' d'' := by
  induction h with
  | refl => exact h'
  | step hc hd _ ih => exact .step hc hd (ih h')

theorem Reads.invariant {inv : Cursor → Draft → Prop}
    (step : ∀ {c d p c' d'}, inv c d → Cut settings c p c' → d.Adds p d' → inv c' d')
    (h : Reads settings c d c' d') (hi : inv c d) : inv c' d' := by
  induction h with
  | refl => exact hi
  | step hc hd _ ih => exact ih (step hi hc hd)

theorem Lexeme.text_ne_nil_of_property {m : Mode} {b : Bool} {prev : Option Char} {r : Text}
    (h : Lexeme settings m b prev p r) (hp : p.kind.category = .property) : p.text ≠ [] :=
  h.text_ne_nil fun hk => by simp [hk, Kind.category] at hp

theorem Draft.fits_empty : ({} : Draft).Fits .initial :=
  ⟨fun _ => rfl, by decide, by simp, fun h => absurd rfl h⟩

/-- **Every row of lexemes can be added** to a draft that is as its mode says. -/
theorem Cuts.exists_reads (h : Cuts settings c ps c') (hd : d.Fits c.mode) :
    ∃ d', Reads settings c d c' d' ∧ d'.Fits c'.mode ∧
      ∀ n, (place n ps).foldlM Draft.add d = .ok d' := by
  induction h generalizing d with
  | nil c => exact ⟨d, .refl c d, hd, fun _ => rfl⟩
  | cons h _ ih =>
    obtain ⟨d₁, hadd, hd₁⟩ := hd.add h.next? h.lexeme.text_ne_nil_of_property
    obtain ⟨d', hreads, hd', hfold⟩ := ih hd₁
    refine ⟨d', .step h hadd hreads, hd', fun n => ?_⟩
    rw [place_cons, List.foldlM_cons, hadd n]
    exact hfold _

theorem Draft.finish_eq_ok (h : d.action ≠ none) : ∃ q, ∀ n, d.finish n = .ok q := by
  cases ha : d.action with
  | none => exact absurd ha h
  | some a => exact ⟨_, fun n => by rw [finish, ha]⟩

theorem foldlM_eq_ok_of_prefix {ts us : List Token} (h : ts <+: us)
    (hu : us.foldlM Draft.add d = .ok d') : ∃ d'', ts.foldlM Draft.add d = .ok d'' := by
  obtain ⟨vs, rfl⟩ := h
  rw [List.foldlM_append] at hu
  cases ht : ts.foldlM Draft.add d with
  | ok d'' => exact ⟨d'', rfl⟩
  | error e => rw [ht] at hu; cases hu

theorem Reads.exists_cuts (h : Reads settings c d c' d') :
    ∃ ps, Cuts settings c ps c' ∧ ∀ n, (place n ps).foldlM Draft.add d = .ok d' := by
  induction h with
  | refl c d => exact ⟨[], .nil c, fun _ => rfl⟩
  | @step _ _ p _ _ _ _ hc hd _ ih =>
    obtain ⟨ps, hcuts, hfold⟩ := ih
    refine ⟨p :: ps, .cons hc hcuts, fun n => ?_⟩
    rw [place_cons, List.foldlM_cons, hd n]
    exact hfold _

theorem tokenize_eq_ok_iff_transcript {ts : List Token} :
    tokenize settings name = .ok ts ↔ Scan.transcript settings name = ⟨ts, none⟩ := by
  unfold tokenize
  obtain ⟨us, fault⟩ := Scan.transcript settings name
  cases fault <;> simp

theorem exists_foldlM_transcript (settings : Settings) (name : Text) :
    ∃ d, (Scan.transcript settings name).tokens.foldlM Draft.add {} = .ok d ∧
      ((Scan.transcript settings name).fault = none → ∃ q, ∀ n, d.finish n = .ok q) := by
  obtain ⟨ps, c, hcuts, h⟩ := handsOut_transcript settings name
  obtain ⟨d, -, hd, hfold⟩ := hcuts.exists_reads Draft.fits_empty
  rcases h with ⟨hm, htr⟩ | ⟨e, -, -, hf, hp⟩
  · rw [htr]
    exact ⟨d, hfold 0, fun _ => Draft.finish_eq_ok (hd.action (by rw [hm]; decide))⟩
  · obtain ⟨d', hd'⟩ := foldlM_eq_ok_of_prefix hp (hfold 0)
    exact ⟨d', hd', fun hn => by simp [hn] at hf⟩

/-- A name is rejected only because it cannot be cut. -/
theorem parse_eq_error_iff {e : Diagnostic} :
    parse settings name = .error e ↔ tokenize settings name = .error e := by
  obtain ⟨d, hd, hq⟩ := exists_foldlM_transcript settings name
  simp only [parse, tokenize, hd]
  cases hf : (Scan.transcript settings name).fault with
  | some e' => simp only [Except.error.injEq]
  | none =>
    obtain ⟨q, hq⟩ := hq hf
    simp only [hq, reduceCtorEq]

/-- **The query of a name** is what its lexemes add up to. -/
theorem parse_eq_ok_iff : parse settings name = .ok q ↔
    ∃ c d, Reads settings (.ofName name) {} c d ∧ c.mode = .done ∧ ∀ n, d.finish n = .ok q := by
  have key {ts : List Token} {d : Draft} (ht : tokenize settings name = .ok ts)
      (hd : ts.foldlM Draft.add {} = .ok d) :
      parse settings name = d.finish (byteLength name) := by
    rw [tokenize_eq_ok_iff_transcript] at ht
    simp only [parse, ht, hd]
  constructor
  · intro h
    cases ht : tokenize settings name with
    | error e => cases h.symm.trans (parse_eq_error_iff.mpr ht)
    | ok ts =>
      obtain ⟨ps, c, hcuts, hm, rfl⟩ := tokenize_eq_ok_iff.mp ht
      obtain ⟨d, hreads, hd, hfold⟩ := hcuts.exists_reads Draft.fits_empty
      obtain ⟨q', hq'⟩ := Draft.finish_eq_ok (hd.action (by rw [hm]; decide))
      rw [key ht (hfold 0), hq', Except.ok.injEq] at h
      exact ⟨c, d, hreads, hm, h ▸ hq'⟩
  · rintro ⟨c, d, hreads, hm, hq⟩
    obtain ⟨ps, hcuts, hfold⟩ := hreads.exists_cuts
    rw [key (tokenize_eq_ok_iff.mpr ⟨ps, c, hcuts, hm, rfl⟩) (hfold 0), hq]

/-- **Whether a name has a query is decided where it is cut**: it is rejected with the diagnostic
that stops its scan, and with no other. Every draft takes the tokens that are handed out to it, and
a scan that comes to its end has handed out an action. -/
theorem parse_agrees_with_tokenize (settings : Settings) (name : Text) :
    (∀ e, parse settings name = .error e ↔ tokenize settings name = .error e) ∧
      ((∃ q, parse settings name = .ok q) ↔ ∃ ts, tokenize settings name = .ok ts) ∧
      ∃ d, (Scan.transcript settings name).tokens.foldlM Draft.add {} = .ok d ∧
        ((Scan.transcript settings name).fault = none → ∃ q, ∀ n, d.finish n = .ok q) := by
  refine ⟨fun e => parse_eq_error_iff, ?_, exists_foldlM_transcript settings name⟩
  have h : (∃ e, parse settings name = .error e) ↔ ∃ e, tokenize settings name = .error e :=
    exists_congr fun e => parse_eq_error_iff
  cases hp : parse settings name <;> cases ht : tokenize settings name <;> simp [hp, ht] at h ⊢

end Names

end DerivedQuery
