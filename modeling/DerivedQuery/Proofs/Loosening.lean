import DerivedQuery.Proofs.Longest

/-!
# Looser settings

A switch that is turned on lifts one ban. A name is read under looser settings as under stricter
ones, unless it is rejected for what is no longer banned.

* `Settings.Loosens`: one pair of settings allows what another one allows;
* `Diagnostic.isSwitched`: the two faults that a switch lifts;
* `Run.Loosens`, `nextRun_loosens`, `nextPiece_of_loosens`: one run, and one piece;
* `Cuts.loosens`, `Reads.loosens`: a row of them;
* **`parse_of_loosens`**: queries and all other faults are kept.
-/

namespace DerivedQuery

/-- The settings `s'` allow whatever `s` allow. -/
structure Settings.Loosens (s s' : Settings) : Prop where
  allowZeroCount : s.allowZeroCount = true → s'.allowZeroCount = true
  separatedOrderItems : s.separatedOrderItems = true → s'.separatedOrderItems = true

/-- Whether a switch lifts the fault: a limit of zero, or a separator between order items. -/
def Diagnostic.isSwitched : Diagnostic → Bool
  | .invalidCount _ digits => digits = ['0']
  | .malformed _ expected => expected = [.property, .finish]
  | _ => false

@[simp] theorem Diagnostic.isSwitched_shift (n : Nat) (d : Diagnostic) :
    (d.shift n).isSwitched = d.isSwitched := by cases d <;> rfl

/-- The second run is the first one, unless that is stopped by a switched fault. -/
def Run.Loosens (run run' : Run) : Prop :=
  run' = run ∨ ∃ d, d.isSwitched = true ∧ run = .stop d

/-! ## One piece

Both scans stand at one place. Either they cut the same run, or the stricter one is stopped by a
switched fault. -/

section Piece

variable {s s' : Settings} {digits : Text}

/-- The digits of a limit that only one of the settings takes are those of zero. -/
theorem limitOf?_of_loosens (h : s.Loosens s') (hne : digits ≠ [])
    (hd : ∀ d ∈ digits, d.isDigit = true) :
    limitOf? s' digits = limitOf? s digits ∨ limitOf? s digits = none ∧ digits = ['0'] := by
  unfold limitOf?
  by_cases hlead : 1 < digits.length ∧ digits.head? = some '0'
  · exact .inl (by rw [if_pos hlead, if_pos hlead])
  rw [if_neg hlead, if_neg hlead]
  by_cases hzero : Nat.ofDigitChars 10 digits 0 = 0
  · have hdigits := toDigits_ofDigitChars hne hd hlead
    rw [hzero] at hdigits ⊢
    cases ha : s.allowZeroCount with
    | true => exact .inl (by rw [h.allowZeroCount ha])
    | false => exact .inr ⟨rfl, hdigits.symm⟩
  · exact .inl (by simp only [hzero, false_and])

theorem limitRun?_of_loosens (h : s.Loosens s') (t : Text) :
    limitRun? s' t = limitRun? s t ∨
      ∃ d, d.isSwitched = true ∧ limitRun? s t = some (.stop d) := by
  unfold limitRun?
  split
  · exact .inl rfl
  · next after _ =>
    by_cases hd : after.takeWhile Char.isDigit = []
    · exact .inl (by simp only [hd, ne_eq, not_true_eq_false, if_false])
    · simp only [ne_eq, hd, not_false_eq_true, if_true]
      rcases limitOf?_of_loosens h hd (fun _ => List.mem_takeWhile_imp) with he | ⟨hn, hz⟩
      · exact .inl (by rw [he])
      · have hs : (Diagnostic.invalidCount (byteLength limitWord)
            (after.takeWhile Char.isDigit)).isSwitched = true := decide_eq_true hz
        exact .inr ⟨_, hs, by rw [hn]⟩

theorem separatorRun_loosens (h : s.Loosens s') (t : Text) :
    (separatorRun s t).Loosens (separatorRun s' t) := by
  unfold separatorRun
  cases hs : s.separatedOrderItems with
  | true => exact .inl (by rw [h.separatedOrderItems hs])
  | false => exact .inr ⟨_, rfl, rfl⟩

theorem plainRun_loosens (h : s.Loosens s') (m : Mode) (prev : Option Char) (t : Text) :
    (plainRun s m prev t).Loosens (plainRun s' m prev t) := by
  cases t with
  | nil => exact .inl rfl
  | cons c cs =>
    rw [plainRun, plainRun]
    by_cases hp : m.accepts .property && startsPath prev c
    · exact .inl (by rw [if_pos hp, if_pos hp])
    · rw [if_neg hp, if_neg hp]
      by_cases hc : c = separator
      · rw [if_pos hc, if_pos hc]
        by_cases hm : m = .directed
        · rw [if_pos hm, if_pos hm]
          exact separatorRun_loosens h cs
        · exact .inl (by rw [if_neg hm, if_neg hm])
      · exact .inl (by rw [if_neg hc, if_neg hc])

theorem clauseRun_loosens (h : s.Loosens s') (m : Mode) (b : Bool) (prev : Option Char)
    (t : Text) : (clauseRun s m b prev t).Loosens (clauseRun s' m b prev t) := by
  have hlimit : (if m.accepts .first then limitRun? s' t else none) =
        (if m.accepts .first then limitRun? s t else none) ∨
      ∃ d, d.isSwitched = true ∧
        (if m.accepts .first then limitRun? s t else none) = some (.stop d) := by
    cases m.accepts .first with
    | true => exact limitRun?_of_loosens h t
    | false => exact .inl rfl
  unfold clauseRun
  rcases hlimit with he | ⟨d, hd, he⟩
  · rw [he]
    split
    · exact .inl rfl
    · split
      · exact .inl rfl
      · exact plainRun_loosens h m prev t
  · exact .inr ⟨d, hd, by rw [he]⟩

theorem nextRun_loosens (h : s.Loosens s') (m : Mode) (b : Bool) (prev : Option Char)
    (t : Text) : (nextRun s m b prev t).Loosens (nextRun s' m b prev t) := by
  unfold nextRun
  split
  · exact .inl rfl
  · split
    · exact .inl rfl
    · split
      · exact .inl rfl
      · exact clauseRun_loosens h m b prev t

/-- **The next piece is the same** under looser settings, and so is the fault that stops a scan,
unless it is a switched one. -/
theorem nextPiece_of_loosens (h : s.Loosens s') (c : Cursor) :
    nextPiece s' c = nextPiece s c ∨ ∃ d, d.isSwitched = true ∧ nextPiece s c = .error d := by
  unfold nextPiece
  split
  · exact .inl rfl
  · rcases nextRun_loosens h c.mode c.isBulk c.previous c.rest with he | ⟨d, hd, he⟩
    · exact .inl (by rw [he])
    · exact .inr ⟨d, hd, by rw [he]; rfl⟩

end Piece

/-! ## Whole names -/

section Names

variable {s s' : Settings} {c c' : Cursor} {d d' : Draft} {p : Piece} {ps : List Piece}
  {name : Text}

theorem Cut.loosens (hcut : Cut s c p c') (h : s.Loosens s') : Cut s' c p c' := by
  rcases nextPiece_of_loosens h c with he | ⟨e, -, he⟩
  · have hp : nextPiece s' c = .ok p := he.trans hcut.nextPiece_eq
    obtain ⟨r, hr, hlex⟩ := exists_lexeme_of_nextPiece hp
    obtain rfl : c'.rest = r := List.append_cancel_left (hcut.rest.symm.trans hr)
    exact { hcut with lexeme := hlex }
  · cases he.symm.trans hcut.nextPiece_eq

theorem Cuts.loosens (hcuts : Cuts s c ps c') (h : s.Loosens s') : Cuts s' c ps c' := by
  induction hcuts with
  | nil c => exact .nil c
  | cons hcut _ ih => exact .cons (hcut.loosens h) ih

theorem Reads.loosens (hreads : Reads s c d c' d') (h : s.Loosens s') : Reads s' c d c' d' := by
  induction hreads with
  | refl c d => exact .refl c d
  | step hcut hadd _ ih => exact .step (hcut.loosens h) hadd ih

/-- **Looser settings never change or lose a query**, and lift no other fault than a limit of zero
and a separator between order items. -/
theorem parse_of_loosens (h : s.Loosens s') (name : Text) :
    (∀ q, parse s name = .ok q → parse s' name = .ok q) ∧
      ∀ e, parse s name = .error e → e.isSwitched = false → parse s' name = .error e := by
  constructor
  · intro q hq
    obtain ⟨c, d, hreads, hdone, hd⟩ := parse_eq_ok_iff.mp hq
    exact parse_eq_ok_iff.mpr ⟨c, d, hreads.loosens h, hdone, hd⟩
  · intro e he hs
    rw [parse_eq_error_iff, tokenize_eq_error_iff] at he ⊢
    obtain ⟨ps, c, e', hcuts, hm, he', rfl⟩ := he
    rw [Diagnostic.isSwitched_shift] at hs
    refine ⟨ps, c, e', hcuts.loosens h, hm, ?_, rfl⟩
    rcases nextPiece_of_loosens h c with hc | ⟨d, hd, hc⟩
    · rw [hc, he']
    · obtain rfl : d = e' := Except.error.inj (hc.symm.trans he')
      rw [hs] at hd
      cases hd

theorem parse_of_loosens_findFirst :
    Settings.Loosens { separatedOrderItems := false } { allowZeroCount := true } ∧
      parse { allowZeroCount := true } "findFirst3OrderByNameAscAge".toList = .ok
        { action := .find
          projection := some (.first 3)
          ordering := [⟨⟨["name".toList], by decide, by decide⟩, .asc⟩,
            ⟨⟨["age".toList], by decide, by decide⟩, .default⟩] } ∧
      parse { allowZeroCount := true } "findFirst00".toList = .error (.invalidCount 9 ['0', '0']) := by
  have h : Settings.Loosens { separatedOrderItems := false } { allowZeroCount := true } :=
    ⟨nofun, nofun⟩
  exact ⟨h, (parse_of_loosens h _).1 _ (by decide +kernel),
    (parse_of_loosens h _).2 _ (by decide +kernel) (by decide)⟩

end Names

end DerivedQuery
