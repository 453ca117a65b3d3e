import DerivedQuery.Derivation
import DerivedQuery.Proofs.Lexeme

/-!
# Cutting a name

The scan of a name cuts it lexeme by lexeme. Runs, the queue and the bound on the number of calls
leave no trace in what is handed out in the end.

* `Cut`, `Cuts`: one lexeme, and a row of them;
* `textOf`, `place`: the text of pieces, and their tokens;
* **`Cuts.unique`**: a text is cut in one way; `Cuts.of_front`: and on from any lexeme on the way;
* **`isRow_nextRun`**: a run is a row of lexemes, and its fault stops the next one.
-/

namespace DerivedQuery

/-! ## Rows of lexemes -/

/-- A lexeme is cut off. -/
structure Cut (settings : Settings) (c : Cursor) (p : Piece) (c' : Cursor) : Prop where
  lexeme : Lexeme settings c.mode c.isBulk c.previous p c'.rest
  next? : c.mode.next? p.kind = some c'.mode
  rest : c.rest = p.text ++ c'.rest
  isBulk : c'.isBulk = (c.isBulk || Scan.isBulkAction p.kind)
  previous : c'.previous = p.text.getLast?.or c.previous

/-- Lexemes are cut off one after the other. -/
inductive Cuts (settings : Settings) : Cursor → List Piece → Cursor → Prop
  | nil (c) : Cuts settings c [] c
  | cons {c p c' ps c''} (h : Cut settings c p c') (t : Cuts settings c' ps c'') :
    Cuts settings c (p :: ps) c''

/-- The text of a row of pieces. -/
def textOf (ps : List Piece) : Text := ps.flatMap Piece.text

@[simp] theorem textOf_nil : textOf [] = [] := rfl

@[simp] theorem textOf_cons (p : Piece) (ps : List Piece) :
    textOf (p :: ps) = p.text ++ textOf ps := rfl

@[simp] theorem textOf_append (ps qs : List Piece) :
    textOf (ps ++ qs) = textOf ps ++ textOf qs := List.flatMap_append

/-- The tokens of pieces that begin at a position. -/
def place (position : Nat) : List Piece → List Token
  | [] => []
  | p :: ps => ⟨p.kind, p.text, position⟩ :: place (position + byteLength p.text) ps

@[simp] theorem place_nil (n : Nat) : place n [] = [] := rfl

@[simp] theorem place_cons (n : Nat) (p : Piece) (ps : List Piece) :
    place n (p :: ps) = ⟨p.kind, p.text, n⟩ :: place (n + byteLength p.text) ps := rfl

@[simp] theorem length_place (n : Nat) (ps : List Piece) : (place n ps).length = ps.length := by
  induction ps generalizing n with
  | nil => rfl
  | cons p ps ih => simp [ih]

theorem place_append (n : Nat) (ps qs : List Piece) :
    place n (ps ++ qs) = place n ps ++ place (n + byteLength (textOf ps)) qs := by
  induction ps generalizing n with
  | nil => rfl
  | cons p ps ih => simp [ih, Nat.add_assoc]

theorem exists_mem_of_place {n : Nat} {t : Token} {ps : List Piece} (h : t ∈ place n ps) :
    ∃ p ∈ ps, p.kind = t.kind ∧ p.text = t.text := by
  induction ps generalizing n with
  | nil => cases h
  | cons p ps ih =>
    rcases List.mem_cons.mp h with rfl | h
    · exact ⟨p, List.mem_cons_self, rfl, rfl⟩
    · obtain ⟨q, hq, hk⟩ := ih h
      exact ⟨q, List.mem_cons_of_mem p hq, hk⟩

section Rows

variable {settings : Settings} {c c' c'' : Cursor} {p : Piece} {ps qs : List Piece}

theorem Cut.nextPiece_eq (h : Cut settings c p c') : nextPiece settings c = .ok p := by
  have := h.lexeme.nextPiece_eq
  rwa [← h.rest] at this

theorem Cut.unique {q : Piece} (h : Cut settings c p c') (h' : Cut settings c q c'') :
    p = q ∧ c' = c'' := by
  obtain rfl := Except.ok.inj (h.nextPiece_eq.symm.trans h'.nextPiece_eq)
  refine ⟨rfl, Cursor.ext ?_ ?_ ?_ ?_⟩
  · exact Option.some.inj (h.next?.symm.trans h'.next?)
  · rw [h.isBulk, h'.isBulk]
  · rw [h.previous, h'.previous]
  · exact List.append_cancel_left (h.rest.symm.trans h'.rest)

theorem Cuts.target_unique (h : Cuts settings c ps c') (h' : Cuts settings c ps c'') :
    c' = c'' := by
  induction h with
  | nil =>
    cases h'
    rfl
  | cons h _ ih =>
    cases h' with
    | cons h' t' =>
      obtain ⟨-, rfl⟩ := h.unique h'
      exact ih t'

theorem Cuts.rest_eq (h : Cuts settings c ps c') : c.rest = textOf ps ++ c'.rest := by
  induction h with
  | nil => rfl
  | cons h _ ih => rw [h.rest, ih, textOf_cons, List.append_assoc]

theorem Cuts.previous_eq (h : Cuts settings c ps c') :
    c'.previous = (textOf ps).getLast?.or c.previous := by
  induction h with
  | nil => rfl
  | cons h _ ih => rw [ih, h.previous, textOf_cons, List.getLast?_append, Option.or_assoc]

theorem Cuts.append (h : Cuts settings c ps c') (h' : Cuts settings c' qs c'') :
    Cuts settings c (ps ++ qs) c'' := by
  induction h with
  | nil => exact h'
  | cons h _ ih => exact .cons h (ih h')

theorem Cut.cuts (h : Cut settings c p c') : Cuts settings c [p] c' := .cons h (.nil c')

/-- No lexeme is cut off here. -/
def Stuck (settings : Settings) (c : Cursor) : Prop := ∀ p c', ¬ Cut settings c p c'

theorem stuck_of_done (h : c.mode = .done) : Stuck settings c := by
  intro p c' hc
  have hn := hc.next?
  rw [h] at hn
  revert hn
  cases p.kind <;> simp [Mode.next?, Mode.accepts, Mode.expected]

theorem stuck_of_error {d : Diagnostic} (h : nextPiece settings c = .error d) :
    Stuck settings c := by
  intro p c' hc
  cases h.symm.trans hc.nextPiece_eq

/-- **A text is cut in one way**, up to where nothing can be cut. -/
theorem Cuts.unique (h : Cuts settings c ps c') (hs : Stuck settings c')
    (h' : Cuts settings c qs c'') (hs' : Stuck settings c'') : ps = qs ∧ c' = c'' := by
  induction h generalizing qs with
  | nil c =>
    cases h' with
    | nil => exact ⟨rfl, rfl⟩
    | cons h' _ => exact absurd h' (hs _ _)
  | cons h _ ih =>
    cases h' with
    | nil => exact absurd h (hs' _ _)
    | cons h' t' =>
      obtain ⟨rfl, rfl⟩ := h.unique h'
      obtain ⟨rfl, rfl⟩ := ih hs t'
      exact ⟨rfl, rfl⟩

/-- **Of two rows of lexemes** of one text, one goes on from the other. -/
theorem Cuts.comparable (h : Cuts settings c ps c') (h' : Cuts settings c qs c'') :
    (∃ rs, qs = ps ++ rs ∧ Cuts settings c' rs c'') ∨
      ∃ rs, ps = qs ++ rs ∧ Cuts settings c'' rs c' := by
  induction h generalizing qs with
  | nil => exact .inl ⟨qs, rfl, h'⟩
  | @cons c p c₁ ps c' hcut t ih =>
    cases h' with
    | nil => exact .inr ⟨p :: ps, rfl, .cons hcut t⟩
    | cons hcut' t' =>
      obtain ⟨rfl, rfl⟩ := hcut.unique hcut'
      rcases ih t' with ⟨rs, rfl, hrs⟩ | ⟨rs, rfl, hrs⟩
      · exact .inl ⟨rs, rfl, hrs⟩
      · exact .inr ⟨rs, rfl, hrs⟩

/-- What is cut up to where nothing can be cut goes on from any row of lexemes before it. -/
theorem Cuts.of_front (h : Cuts settings c ps c') (h' : Cuts settings c qs c'')
    (hs : Stuck settings c'') : ∃ rs, qs = ps ++ rs ∧ Cuts settings c' rs c'' := by
  rcases h.comparable h' with hrs | ⟨rs, rfl, hrs⟩
  · exact hrs
  · cases hrs with
    | nil => exact ⟨[], by simp, .nil _⟩
    | cons hcut => exact absurd hcut (hs _ _)

end Rows

/-! ## Runs -/

section Runs

variable {settings : Settings} {m m' : Mode} {b : Bool} {prev : Option Char} {p : Piece}
  {c c' : Cursor} {t r : Text}

theorem Keyword.exists_next? {k : Keyword} (hk : k ∈ Keyword.table)
    (ha : m.accepts k.kind.category = true) : ∃ m', m.next? k.kind = some m' := by
  have h : ∀ k ∈ Keyword.table, ∀ m ∈ Mode.every,
      m.accepts k.kind.category = true → (m.next? k.kind).isSome = true := by decide +kernel
  exact Option.isSome_iff_exists.mp (h k hk m m.mem_every ha)

/-- **No lexeme is refused** by the table of modes. -/
theorem Lexeme.exists_next? (h : Lexeme settings m b prev p r) :
    ∃ m', m.next? p.kind = some m' := by
  cases h with
  | finish h => exact ⟨.done, if_pos h⟩
  | leading => exact ⟨_, rfl⟩
  | capitalized => exact ⟨_, rfl⟩
  | preamble => exact ⟨_, rfl⟩
  | limit h => exact ⟨.limited, if_pos h⟩
  | keyword _ h =>
    obtain ⟨hk, ha, -, -⟩ := longestKeyword?_eq_some_iff.mp h
    exact Keyword.exists_next? hk ha
  | pathStart _ h => exact ⟨_, h⟩
  | pathSeparator h | pathPart h => revert h; cases m <;> simp [Mode.isWithinPath, Mode.next?]
  | itemSeparator => exact ⟨_, rfl⟩

theorem Lexeme.cut (h : Lexeme settings m b prev p r) (hm : m.next? p.kind = some m') :
    Cut settings ⟨m, b, prev, p.text ++ r⟩ p
      ⟨m', b || Scan.isBulkAction p.kind, p.text.getLast?.or prev, r⟩ :=
  ⟨h, hm, rfl, rfl, rfl⟩

theorem exists_cut_of_nextPiece (h : nextPiece settings c = .ok p) : ∃ c', Cut settings c p c' := by
  obtain ⟨r, hr, hl⟩ := exists_lexeme_of_nextPiece h
  obtain ⟨m', hm⟩ := hl.exists_next?
  exact ⟨⟨m', _, _, r⟩, hl, hm, hr, rfl, rfl⟩

theorem exists_cut_of_lexeme (hr : c.rest = p.text ++ r)
    (h : Lexeme settings c.mode c.isBulk c.previous p r) :
    ∃ c', Cut settings c p c' ∧ c'.rest = r := by
  obtain ⟨m', hm⟩ := h.exists_next?
  exact ⟨⟨m', _, _, r⟩, ⟨h, hm, hr, rfl, rfl⟩, rfl⟩

/-- A run begins here: no path goes on. -/
def AtRun (c : Cursor) : Prop := partPiece? c.mode c.previous c.rest = none

theorem Mode.eq_of_isWithinPath {k : Kind} (h : m.next? k = some m')
    (hw : m'.isWithinPath = true) :
    k = .pathStart ∨ m = m' ∧ (k = .pathPart ∨ k = .separator) := by
  cases k with
  | pathStart => exact .inl rfl
  | pathPart | separator =>
    right
    revert h
    cases m <;> simp only [next?, Option.some.injEq, reduceCtorEq, false_implies] <;>
      rintro rfl <;> simp_all [isWithinPath]
  | preamble | action a | all | first n | distinct | aggregate a | criteria | ordering | operator o
  | connective k | direction d | finish =>
    rw [next?] at h
    split at h
    · cases h
      first | cases hw | (cases a <;> cases hw)
    · cases h
  | negation | ignoreCase =>
    rw [next?.eq_def] at h
    dsimp only at h
    split at h <;> cases h <;> cases hw

/-- Where a run begins, a lexeme that starts no path is a run of its own. -/
theorem Cut.atRun (h : Cut settings c p c') (hc : AtRun c) (hp : p.kind ≠ .pathStart) :
    AtRun c' := by
  cases hw : c'.mode.isWithinPath with
  | false => exact partPiece?_eq_none hw
  | true =>
    rcases Mode.eq_of_isWithinPath h.next? hw with hk | ⟨hm, hk⟩
    · exact absurd hk hp
    · rw [← hm] at hw
      rcases hk with hk | hk
      · obtain ⟨-, hs, d, ds, ht, -⟩ := h.lexeme.of_pathPart hk
        rw [AtRun, h.rest, ht, List.cons_append] at hc
        exact absurd hs ((partPiece?_cons_eq_none_iff hw).mp hc).1
      · have hs := (h.lexeme.of_separator hk).1
        rw [AtRun, h.rest, hs] at hc
        exact absurd rfl ((partPiece?_cons_eq_none_iff hw).mp hc).2

theorem getLast?_cons_or (d : Char) (ds : Text) (o : Option Char) :
    (d :: ds).getLast?.or o = ds.getLast?.or (some d) := by
  cases ds <;> simp [List.getLast?_cons]

theorem Mode.isWithinPath_of_pathMode? (h : m.pathMode? = some m') : m'.isWithinPath = true := by
  revert h
  cases m <;> simp only [pathMode?, next?, Option.some.injEq, reduceCtorEq, false_implies] <;>
    rintro rfl <;> rfl

theorem Mode.next?_part (hm : m.isWithinPath = true) :
    m.next? .separator = some m ∧ m.next? .pathPart = some m := by
  revert hm
  cases m <;> decide

theorem Mode.isWithinPath_of_property {k : Kind} (hk : k.category = .property)
    (h : m.next? k = some m') : m'.isWithinPath = true := by
  rcases Kind.category_eq_property_iff.mp hk with rfl | rfl
  · exact isWithinPath_of_pathMode? h
  · revert h
    cases m <;> intro h <;> cases h <;> rfl

theorem nextPiece_eq_danglingSeparator (hm : m.isWithinPath = true) (hp : prev ≠ some separator)
    {cs : Text} (hc : ∀ d ds, cs = d :: ds → d.isAlpha = false) :
    nextPiece settings ⟨m, b, prev, separator :: cs⟩ = .error (.danglingSeparator 0) := by
  cases cs with
  | nil => simp [nextPiece, partPiece?.eq_def, hm, hp]
  | cons d ds => simp [nextPiece, partPiece?.eq_def, hm, hp, hc d ds rfl]

/-- **The tail of a path** is a row of lexemes after the rest of its first segment. -/
theorem exists_cuts_of_pathTail (settings : Settings) (b : Bool) (hm : m.isWithinPath = true)
    (t : Text) (d : Char) (hd : d ≠ separator) :
    ∃ r c', t = (pathTail m.accepts t).1 ++ r ∧
      Cuts settings ⟨m, b, (pathTail m.accepts t).1.getLast?.or (some d), r⟩
        (pathTail m.accepts t).2.pieces c' ∧ c'.mode = m ∧
      ((pathTail m.accepts t).2.fault = none → AtRun c') ∧
      ∀ e, (pathTail m.accepts t).2.fault = some e → nextPiece settings c' = .error e := by
  fun_induction pathTail m.accepts t generalizing d with
  | case1 => exact ⟨[], _, rfl, .nil _, rfl, fun _ => rfl, fun e he => by cases he⟩
  | case2 c cs h tail ih =>
    have hc := ne_separator_of_isAlphanum (isAlphanum_of_segmentContinues h)
    obtain ⟨r, c', hr, hcuts, hrest⟩ := ih c hc
    refine ⟨r, c', congrArg (c :: ·) hr, ?_, hrest⟩
    rwa [getLast?_cons_or]
  | case3 c cs hc tail h ih =>
    obtain ⟨r, c', hr, hcuts, hrest⟩ :=
      ih c (ne_separator_of_isAlphanum (isAlphanum_of_isAlpha hc))
    have hseg : segmentTail m.accepts (tail.1 ++ r) = tail.1 := by
      rw [← hr]; exact (fst_pathTail cs).symm
    have hsep : Cut settings ⟨m, b, some d, separator :: c :: cs⟩ ⟨.separator, [separator]⟩
        ⟨m, b, some separator, c :: cs⟩ :=
      ⟨.pathSeparator hm ((Option.some_injective _).ne hd) hc, (Mode.next?_part hm).1, rfl,
        (Bool.or_false b).symm, rfl⟩
    have hpart : Cut settings ⟨m, b, some separator, c :: cs⟩ ⟨.pathPart, c :: tail.1⟩
        ⟨m, b, tail.1.getLast?.or (some c), r⟩ :=
      ⟨.pathPart hm hc hseg, (Mode.next?_part hm).2, congrArg (c :: ·) hr, (Bool.or_false b).symm,
        (getLast?_cons_or _ _ _).symm⟩
    exact ⟨_, c', rfl, .cons hsep (.cons hpart hcuts), hrest⟩
  | case4 c cs hc h =>
    refine ⟨_, _, rfl, .nil _, rfl, (fun hn => by cases hn), fun e he => ?_⟩
    cases he
    exact nextPiece_eq_danglingSeparator hm ((Option.some_injective _).ne hd)
      fun _ _ h => (List.cons.inj h).1 ▸ by simpa using hc
  | case5 h =>
    refine ⟨_, _, rfl, .nil _, rfl, (fun hn => by cases hn), fun e he => ?_⟩
    cases he
    exact nextPiece_eq_danglingSeparator hm ((Option.some_injective _).ne hd) (by simp)
  | case6 c cs h hc =>
    have hat : AtRun ⟨m, b, some d, c :: cs⟩ := partPiece?_cons_eq_none
      (fun _ => (Option.some_injective _).ne hd) hc
    exact ⟨_, _, rfl, .nil _, rfl, fun _ => hat, fun e he => by cases he⟩

/-- The pieces of an action and of the text before it. -/
def actionPieces (u : Text) (a : Action) : List Piece :=
  (if u = [] then [] else [⟨.preamble, u⟩]) ++ [actionPiece a a.capitalized]

theorem limitRun?_cases {run : Run} (h : limitRun? settings t = some run) :
    (∃ d, run = .stop d) ∨ ∃ n text, run = .cut [⟨.first n, text⟩] := by
  rw [limitRun?] at h
  split at h
  · cases h
  · dsimp only at h
    split at h
    · split at h <;> cases h
      · exact .inr ⟨_, _, rfl⟩
      · exact .inl ⟨_, rfl⟩
    · split at h
      · cases h
        exact .inl ⟨_, rfl⟩
      · split at h <;> cases h
        exact .inl ⟨_, rfl⟩

theorem plainRun_cases (settings : Settings) (m : Mode) (prev : Option Char) (t : Text) :
    (∃ d, plainRun settings m prev t = .stop d) ∨
      (∃ text, plainRun settings m prev t = .cut [⟨.separator, text⟩]) ∨
      ∃ within d ds, t = d :: ds ∧ m.pathMode? = some within ∧ startsPath prev d = true ∧
        plainRun settings m prev t = pathRun m t := by
  cases t with
  | nil => exact .inl ⟨_, rfl⟩
  | cons d ds =>
    rw [plainRun]
    split
    · next h =>
      rw [Bool.and_eq_true] at h
      cases hw : m.pathMode? with
      | none => exact .inl ⟨.malformed 0 m.expected, by simp only [pathRun, hw]⟩
      | some within => exact .inr (.inr ⟨within, d, ds, rfl, rfl, h.2, rfl⟩)
    · split
      · split
        · unfold separatorRun
          split
          · exact .inl ⟨_, rfl⟩
          · split
            · split
              · exact .inr (.inl ⟨_, rfl⟩)
              · exact .inl ⟨_, rfl⟩
            · exact .inl ⟨_, rfl⟩
        · split <;> exact .inl ⟨_, rfl⟩
      · exact .inl ⟨_, rfl⟩

/-- A run is a fault, one piece, a preamble with its action, or a path. -/
theorem nextRun_cases (settings : Settings) (b : Bool) (prev : Option Char) (t : Text)
    (hm : m ≠ .done) :
    (∃ d, nextRun settings m b prev t = .stop d) ∨
      (∃ p, nextRun settings m b prev t = .cut [p] ∧ p.kind ≠ .pathStart) ∨
      (∃ u a, m = .initial ∧ splitAtAction t = .ok (u, a) ∧
        nextRun settings m b prev t = .cut [⟨.preamble, u⟩, actionPiece a a.capitalized]) ∨
      ∃ within d ds, t = d :: ds ∧ m.pathMode? = some within ∧ startsPath prev d = true ∧
        nextRun settings m b prev t = pathRun m t := by
  rw [nextRun]
  split
  · split
    · exact .inr (.inl ⟨_, rfl, by simp⟩)
    · exact .inl ⟨_, rfl⟩
  · split
    · next hi =>
      rw [actionRun]
      split
      · exact .inr (.inl ⟨_, rfl, by simp [actionPiece]⟩)
      · split
        · exact .inr (.inl ⟨_, rfl, by simp [actionPiece]⟩)
        · next u a _ hs => exact .inr (.inr (.inl ⟨u, a, hi, hs, rfl⟩))
        · exact .inl ⟨_, rfl⟩
    · rw [clauseRun]
      split
      · next run hr =>
        split at hr
        · rcases limitRun?_cases hr with ⟨d, rfl⟩ | ⟨n, text, rfl⟩
          · exact .inl ⟨d, rfl⟩
          · exact .inr (.inl ⟨_, rfl, by simp⟩)
        · cases hr
      · split
        · next k hk =>
          split
          · exact .inl ⟨_, rfl⟩
          · exact .inr (.inl ⟨_, rfl, kind_ne_of_longestKeyword? hk rfl⟩)
        · rcases plainRun_cases settings m prev t with h | ⟨text, h⟩ | h
          · exact .inl h
          · exact .inr (.inl ⟨_, h, by simp⟩)
          · exact .inr (.inr (.inr h))

/-- The pieces of a run are lexemes; a run without a fault has one, and leads to where the next run
begins; a fault is the one that stops the next lexeme. -/
def IsRow (settings : Settings) (c : Cursor) (run : Run) : Prop :=
  ∃ c', Cuts settings c run.pieces c' ∧ (run.fault = none → run.pieces ≠ [] ∧ AtRun c') ∧
    ∀ e, run.fault = some e → c'.mode ≠ .done ∧ nextPiece settings c' = .error e

theorem isRow_preamble {u : Text} {a : Action} (hi : c.mode = .initial) (hc : AtRun c)
    (hs : splitAtAction c.rest = .ok (u, a)) (h : nextPiece settings c = .ok ⟨.preamble, u⟩) :
    IsRow settings c (.cut [⟨.preamble, u⟩, actionPiece a a.capitalized]) := by
  obtain ⟨c', hcut⟩ := exists_cut_of_nextPiece h
  obtain ⟨r, hr, ha⟩ := exists_of_splitAtAction hs
  have hrest : c'.rest = r := List.append_cancel_left (hcut.rest.symm.trans hr)
  have hm : c'.mode = .initial := by
    have := hcut.next?
    rw [hi] at this
    exact (Option.some.inj this).symm
  obtain ⟨r', hr', hb⟩ := capitalizedAction?_eq_some_iff.mp ha
  have hlex : Lexeme settings c'.mode c'.isBulk c'.previous (actionPiece a a.capitalized) r' := by
    rw [hm]
    exact .capitalized hb
  obtain ⟨c'', hcut', -⟩ := exists_cut_of_lexeme (hrest.trans hr') hlex
  have hc' : AtRun c' := hcut.atRun hc nofun
  exact ⟨c'', .cons hcut hcut'.cuts, fun _ => ⟨by simp [Run.cut], hcut'.atRun hc' nofun⟩, nofun⟩

theorem isRow_pathRun {within : Mode} {d : Char} {ds : Text} (ht : c.rest = d :: ds)
    (hw : c.mode.pathMode? = some within) (hd : startsPath c.previous d = true)
    (h : nextPiece settings c = (pathRun c.mode c.rest).front) :
    IsRow settings c (pathRun c.mode c.rest) := by
  have hp : within.isWithinPath = true := Mode.isWithinPath_of_pathMode? hw
  have hd' : d ≠ separator := by
    rintro rfl
    revert hd
    simp [startsPath, separator]
  have hrun : pathRun c.mode c.rest = { (pathTail within.accepts ds).2 with
      pieces := ⟨.pathStart, d :: (pathTail within.accepts ds).1⟩ ::
        (pathTail within.accepts ds).2.pieces } := by
    simp only [pathRun, hw, ht]
  rw [hrun] at h ⊢
  obtain ⟨c', hcut⟩ := exists_cut_of_nextPiece h
  obtain ⟨r, c'', hr, hcuts, hm, hrest, hfault⟩ :=
    exists_cuts_of_pathTail settings c'.isBulk hp ds d hd'
  have hc' : c' = ⟨within, c'.isBulk, (pathTail within.accepts ds).1.getLast?.or (some d), r⟩ := by
    refine Cursor.ext (Option.some.inj (hcut.next?.symm.trans hw)) rfl ?_ ?_
    · exact hcut.previous.trans (getLast?_cons_or _ _ _)
    · have he := hcut.rest.symm.trans ht
      rw [List.cons_append, List.cons.injEq, and_iff_right rfl] at he
      exact List.append_cancel_left (he.trans hr)
  rw [← hc'] at hcuts
  refine ⟨c'', .cons hcut hcuts, fun hn => ⟨by simp, hrest hn⟩, fun e he => ⟨?_, hfault e he⟩⟩
  rw [hm]
  rintro rfl
  cases hp

/-- **A run is a row of lexemes.** -/
theorem isRow_nextRun (settings : Settings) (hc : AtRun c) (hm : c.mode ≠ .done) :
    IsRow settings c (nextRun settings c.mode c.isBulk c.previous c.rest) := by
  have hf : nextPiece settings c = (nextRun settings c.mode c.isBulk c.previous c.rest).front :=
    nextPiece_eq_front hc
  rcases nextRun_cases settings c.isBulk c.previous c.rest hm
    with ⟨d, h⟩ | ⟨p, h, hp⟩ | ⟨u, a, hi, hs, h⟩ | ⟨within, d, ds, ht, hw, hd, h⟩
  · rw [h] at hf ⊢
    exact ⟨c, .nil c, nofun, fun e he => ⟨hm, by cases he; exact hf⟩⟩
  · rw [h] at hf ⊢
    obtain ⟨c', hcut⟩ := exists_cut_of_nextPiece hf
    exact ⟨c', hcut.cuts, fun _ => ⟨by simp [Run.cut], hcut.atRun hc hp⟩, nofun⟩
  · rw [h] at hf ⊢
    exact isRow_preamble hi hc hs hf
  · rw [h] at hf ⊢
    exact isRow_pathRun ht hw hd hf

end Runs

end DerivedQuery
