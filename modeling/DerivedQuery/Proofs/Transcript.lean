import DerivedQuery.Proofs.Cutting

/-!
# What a scan hands out

* `Cursor.scan`: the scan that stands at a cursor; `step_scan`: its next run;
* `Cuts.length_le`: a lexeme takes a byte at least, the end of the name apart;
* `handsOut_transcriptFor`: calls that are enough hand out every lexeme, or stop at a fault;
* **`tokenize_eq_ok_iff`**, **`tokenize_eq_error_iff`**: the tokens of a name are its lexemes up to
  the end, and its fault is the one that stops them.
-/

namespace DerivedQuery

section Length

variable {settings : Settings} {m : Mode} {b : Bool} {prev : Option Char} {p : Piece} {r : Text}
  {c c' : Cursor} {ps : List Piece}

theorem Lexeme.text_ne_nil (h : Lexeme settings m b prev p r) (hp : p.kind ≠ .finish) :
    p.text ≠ [] := by
  cases h with
  | finish => exact absurd rfl hp
  | @leading a =>
    obtain ⟨c, cs, he, -⟩ := a.exists_keyword_eq_cons
    simp [he]
  | @capitalized a =>
    obtain ⟨c, cs, he, -⟩ := a.exists_capitalized_eq_cons
    simp [he]
  | preamble hu => exact hu
  | limit _ hd => simp [hd]
  | keyword _ hk =>
    obtain ⟨c, cs, he, -⟩ := Keyword.exists_cons (longestKeyword?_eq_some_iff.mp hk).1
    simp [he]
  | pathStart | pathSeparator | pathPart | itemSeparator => simp

theorem length_le_byteLength (t : Text) : t.length ≤ byteLength t := by
  induction t with
  | nil => exact le_rfl
  | cons c cs ih =>
    have := c.utf8Size_pos
    rw [List.length_cons, byteLength_cons]
    omega

theorem Mode.eq_done_of_finish {m m' : Mode} (h : m.next? .finish = some m') : m' = .done := by
  rw [next?] at h
  split at h
  · exact (Option.some.inj h).symm
  · cases h

theorem Mode.eq_finish_of_done {m : Mode} {k : Kind} (h : m.next? k = some .done) :
    k = .finish := by
  cases k with
  | finish => rfl
  | action a =>
    rw [next?] at h
    split at h
    · cases a <;> cases h
    · cases h
  | pathStart | pathPart | separator | negation | ignoreCase => cases m <;> cases h
  | _ =>
    rw [next?] at h
    split at h <;> cases h

/-- **A lexeme takes a byte at least**, the end of the name apart. -/
theorem Cuts.length_le (h : Cuts settings c ps c') :
    ps.length + byteLength c'.rest ≤ byteLength c.rest + if c'.mode = .done then 1 else 0 := by
  induction h with
  | nil =>
    rw [List.length_nil]
    omega
  | @cons c p c₁ ps c' h t ih =>
    rw [h.rest, byteLength_append, List.length_cons]
    by_cases hp : p.kind = .finish
    · have hd : c₁.mode = .done := Mode.eq_done_of_finish (hp ▸ h.next?)
      cases t with
      | nil =>
        rw [if_pos hd, List.length_nil]
        omega
      | cons h' => exact absurd h' (stuck_of_done hd _ _)
    · have := length_le_byteLength p.text
      have := List.length_pos_iff.mpr (h.lexeme.text_ne_nil hp)
      omega

end Length

/-! ## Scans at a cursor -/

/-- The scan that stands at a cursor. -/
def Cursor.scan (c : Cursor) (settings : Settings) (position : Nat) (queue : List Token) : Scan :=
  ⟨settings, c.mode, position, c.previous, c.rest, queue, c.isBulk⟩

section Scan

variable {settings : Settings} {c c' : Cursor} {p : Piece} {ps : List Piece} {n : Nat}
  {q : List Token}

theorem pass_scan (h : Cut settings c p c') (k : Nat) :
    (c.scan settings n q).pass ⟨⟨p.kind, p.text, k⟩, c.mode, c'.mode⟩ =
      c'.scan settings (n + byteLength p.text) q := by
  simp only [Scan.pass, Cursor.scan, h.isBulk, h.previous, h.rest, List.drop_left]

theorem foldl_pass_scan (h : Cuts settings c ps c') (k : Nat) :
    (moves c.mode k ps).1.foldl Scan.pass (c.scan settings n q) =
      c'.scan settings (n + byteLength (textOf ps)) q := by
  induction h generalizing n k with
  | nil => rfl
  | cons h t ih =>
    simp only [moves, h.next?, List.foldl_cons, pass_scan h, ih, textOf_cons, byteLength_append,
      Nat.add_assoc]

theorem moves_eq_place (h : Cuts settings c ps c') (k : Nat) :
    (moves c.mode k ps).1.map Move.token = place k ps ∧ (moves c.mode k ps).2 = none := by
  induction h generalizing k with
  | nil => exact ⟨rfl, rfl⟩
  | @cons c p c₁ ps c' h t ih =>
    obtain ⟨h₁, h₂⟩ := ih (k + byteLength p.text)
    simp only [moves, h.next?, List.map_cons, h₁, h₂, place_cons, and_self]

/-- A scan takes the next run as it is, when its pieces are lexemes. -/
theorem step_scan_of_cuts {run : Run}
    (hr : nextRun settings c.mode c.isBulk c.previous c.rest = run)
    (h : Cuts settings c run.pieces c') :
    (c.scan settings n q).step =
        (c'.scan settings (n + byteLength (textOf run.pieces)) (q ++ place n run.pieces),
          run.fault.map (Diagnostic.shift (n + byteLength (textOf run.pieces)))) ∧
      (c.scan settings n q).upcoming.1 = (moves c.mode n run.pieces).1 := by
  have hpass := foldl_pass_scan (n := n) (q := q) h n
  obtain ⟨hplace, hnone⟩ := moves_eq_place h n
  unfold Scan.step Scan.upcoming Scan.run
  simp only [Cursor.scan] at hpass ⊢
  simp only [hr, hpass, hplace, hnone, Option.none_or, and_self]

/-- **The next run of a scan** is a row of lexemes, which it queues. -/
theorem step_scan (settings : Settings) (hc : AtRun c) (hm : c.mode ≠ .done) (n : Nat)
    (q : List Token) :
    ∃ ps c', Cuts settings c ps c' ∧
      (c.scan settings n q).step.1 =
        c'.scan settings (n + byteLength (textOf ps)) (q ++ place n ps) ∧
      (c.scan settings n q).upcoming.1 = (moves c.mode n ps).1 ∧
      ((c.scan settings n q).step.2 = none ∧ ps ≠ [] ∧ AtRun c' ∨
        ∃ e, (c.scan settings n q).step.2 = some (e.shift (n + byteLength (textOf ps))) ∧
          c'.mode ≠ .done ∧ nextPiece settings c' = .error e) := by
  obtain ⟨c', hcuts, hok, herr⟩ := isRow_nextRun settings hc hm
  generalize hrun : nextRun settings c.mode c.isBulk c.previous c.rest = run at hcuts hok herr
  obtain ⟨hstep, hup⟩ := step_scan_of_cuts (n := n) (q := q) hrun hcuts
  refine ⟨_, c', hcuts, congrArg Prod.fst hstep, hup, ?_⟩
  rw [hstep]
  cases hf : run.fault with
  | none => exact .inl ⟨rfl, hok hf⟩
  | some e => exact .inr ⟨e, rfl, herr e hf⟩

theorem next_scan_cons (t : Token) : (c.scan settings n (t :: q)).next =
    (.ok (some t), c.scan settings n q) := by
  rw [Scan.next, if_neg (by simp [Cursor.scan])]
  rfl

theorem next_scan_of_fault {d : Diagnostic} (hm : c.mode ≠ .done)
    (h : (c.scan settings n []).step.2 = some d) :
    (c.scan settings n []).next = (.error d, (c.scan settings n []).step.1.abandon) := by
  rw [Scan.next, if_pos ⟨rfl, hm⟩]
  generalize (c.scan settings n []).step = step at h ⊢
  obtain ⟨s, f⟩ := step
  cases h
  rfl

theorem next_scan_of_step (hm : c.mode ≠ .done) (h : (c.scan settings n []).step.2 = none) :
    (c.scan settings n []).next =
      (.ok (c.scan settings n []).step.1.pop.1, (c.scan settings n []).step.1.pop.2) := by
  rw [Scan.next, if_pos ⟨rfl, hm⟩]
  generalize (c.scan settings n []).step = step at h ⊢
  obtain ⟨s, f⟩ := step
  cases h
  rfl

end Scan

/-! ## Transcripts -/

/-- What is handed out from a cursor on, after the queue: every lexeme up to the end of the name, or
the fault that stops the next lexeme, and some of the lexemes before it. -/
def HandsOut (settings : Settings) (c : Cursor) (n : Nat) (q : List Token) (tr : Transcript) :
    Prop :=
  ∃ ps c', Cuts settings c ps c' ∧
    (c'.mode = .done ∧ tr = ⟨q ++ place n ps, none⟩ ∨
      ∃ e, c'.mode ≠ .done ∧ nextPiece settings c' = .error e ∧
        tr.fault = some (e.shift (n + byteLength (textOf ps))) ∧ tr.tokens <+: q ++ place n ps)

section Transcript

variable {settings : Settings} {c c' : Cursor} {ps : List Piece} {n : Nat} {q : List Token}
  {tr : Transcript} {name : Text}

theorem HandsOut.cons (h : HandsOut settings c n q tr) (t : Token) :
    HandsOut settings c n (t :: q) { tr with tokens := t :: tr.tokens } := by
  obtain ⟨ps, c', hcuts, ⟨hd, rfl⟩ | ⟨e, hd, he, hf, hp⟩⟩ := h
  · exact ⟨ps, c', hcuts, .inl ⟨hd, rfl⟩⟩
  · exact ⟨ps, c', hcuts, .inr ⟨e, hd, he, hf, List.cons_prefix_cons.mpr ⟨rfl, hp⟩⟩⟩

theorem HandsOut.of_cuts (h : Cuts settings c ps c')
    (h' : HandsOut settings c' (n + byteLength (textOf ps)) (q ++ place n ps) tr) :
    HandsOut settings c n q tr := by
  obtain ⟨qs, c'', hcuts, h'⟩ := h'
  refine ⟨ps ++ qs, c'', h.append hcuts, ?_⟩
  rwa [textOf_append, byteLength_append, place_append, ← Nat.add_assoc, ← List.append_assoc]

theorem exists_place_eq_cons (h : ps ≠ []) : ∃ t q, place n ps = t :: q := by
  cases ps with
  | nil => exact absurd rfl h
  | cons p ps => exact ⟨_, _, rfl⟩

/-- Calls that are enough hand out every lexeme, or stop at a fault. -/
theorem handsOut_transcriptFor (settings : Settings) (fuel : Nat) (hc : AtRun c)
    (hf : q.length + (if c.mode = .done then 0 else byteLength c.rest + 1) < fuel) :
    HandsOut settings c n q (Scan.transcriptFor fuel (c.scan settings n q)) := by
  induction fuel generalizing c n q with
  | zero => omega
  | succ fuel ih =>
    cases q with
    | cons t q =>
      rw [Scan.transcriptFor, next_scan_cons]
      rw [List.length_cons] at hf
      exact (ih hc (by omega)).cons t
    | nil =>
      by_cases hm : c.mode = .done
      · refine ⟨[], c, .nil c, .inl ⟨hm, ?_⟩⟩
        rw [Scan.transcriptFor, Scan.next, if_neg (fun h => h.2 hm)]
        rfl
      · obtain ⟨ps, c', hcuts, hs, -, hstep⟩ := step_scan settings hc hm n []
        rcases hstep with ⟨hn, hne, hc'⟩ | ⟨e, hd, hm', he⟩
        · obtain ⟨t, q, hq⟩ := exists_place_eq_cons (n := n) hne
          have hlen : ps.length = q.length + 1 := by
            rw [← length_place n ps, hq, List.length_cons]
          have hle := hcuts.length_le
          rw [Scan.transcriptFor, next_scan_of_step hm hn, hs, hq, List.nil_append]
          refine .of_cuts hcuts ?_
          rw [hq]
          refine (ih hc' ?_).cons t
          rw [if_neg hm, List.length_nil] at hf
          split at hle <;> simp_all <;> omega
        · rw [Scan.transcriptFor, next_scan_of_fault hm hd]
          exact ⟨ps, c', hcuts, .inr ⟨e, hm', he, rfl, List.nil_prefix⟩⟩

theorem handsOut_transcript (settings : Settings) (name : Text) :
    HandsOut settings (.ofName name) 0 [] (Scan.transcript settings name) :=
  handsOut_transcriptFor settings (Scan.callLimit name) (partPiece?_eq_none rfl)
    (by simp [Cursor.ofName, Scan.callLimit])

/-- **The tokens of a name** are its lexemes up to the end. -/
theorem tokenize_eq_ok_iff {ts : List Token} :
    tokenize settings name = .ok ts ↔
      ∃ ps c, Cuts settings (.ofName name) ps c ∧ c.mode = .done ∧ ts = place 0 ps := by
  obtain ⟨ps, c, hcuts, ⟨hd, htr⟩ | ⟨e, hd, he, hf, -⟩⟩ := handsOut_transcript settings name
  · have ht : tokenize settings name = .ok (place 0 ps) := by
      rw [tokenize, htr]
      rfl
    rw [ht, Except.ok.injEq]
    constructor
    · rintro rfl
      exact ⟨ps, c, hcuts, hd, rfl⟩
    · rintro ⟨qs, c', hcuts', hd', rfl⟩
      rw [(hcuts.unique (stuck_of_done hd) hcuts' (stuck_of_done hd')).1]
  · refine iff_of_false ?_ ?_
    · simp only [tokenize, hf]
      exact nofun
    · rintro ⟨qs, c', hcuts', hd', -⟩
      obtain ⟨-, rfl⟩ := hcuts.unique (stuck_of_error he) hcuts' (stuck_of_done hd')
      exact hd hd'

/-- **The fault of a name** is the one that stops the next lexeme. -/
theorem tokenize_eq_error_iff {d : Diagnostic} :
    tokenize settings name = .error d ↔
      ∃ ps c e, Cuts settings (.ofName name) ps c ∧ c.mode ≠ .done ∧
        nextPiece settings c = .error e ∧ d = e.shift (byteLength (textOf ps)) := by
  obtain ⟨ps, c, hcuts, ⟨hd, htr⟩ | ⟨e, hd, he, hf, -⟩⟩ := handsOut_transcript settings name
  · refine iff_of_false ?_ ?_
    · simp only [tokenize, htr]
      exact nofun
    · rintro ⟨qs, c', e, hcuts', hd', he, -⟩
      obtain ⟨-, rfl⟩ := hcuts.unique (stuck_of_done hd) hcuts' (stuck_of_error he)
      exact hd' hd
  · have ht : tokenize settings name = .error (e.shift (byteLength (textOf ps))) := by
      simp only [tokenize, hf, Nat.zero_add]
    rw [ht, Except.error.injEq]
    constructor
    · rintro rfl
      exact ⟨ps, c, e, hcuts, hd, he, rfl⟩
    · rintro ⟨qs, c', e', hcuts', -, he', rfl⟩
      obtain ⟨rfl, rfl⟩ := hcuts.unique (stuck_of_error he) hcuts' (stuck_of_error he')
      rw [Except.error.inj (he.symm.trans he')]

end Transcript

end DerivedQuery
