import DerivedQuery.Proofs.ByteScan
import DerivedQuery.Proofs.Calls

/-!
# Runs over bytes

What a step cuts by counting bytes is the run that the characters make. A byte that passes a test
for ASCII is a character of its own, so the scan never stands within a character.

* `run_bind_ok`, `run_bind_error`: parts of a step one after the other;
* `ByteScan.take`, `outcome`: what a piece and a run make of a scan;
* `ByteScan.At`, `run_emit`: a token is queued where the scan stands between two characters;
* `run_scanSegment`, `run_scanLimit`, `run_scanCapitalized`: a path, a limit and an action;
* **`run_step`**: the next step is the next run.
-/

namespace DerivedQuery

/-! ## Results of parts of a step -/

section Monad

variable {α β : Type} {b b' : ByteScan} {x : ByteM α} {f : α → ByteM β} {a : α} {d : Diagnostic}

theorem run_bind_ok (h : x.run.run b = some (.ok a, b')) :
    (x >>= f).run.run b = (f a).run.run b' := by
  simp only [ExceptT.run_bind, StateT.run_bind, h, Option.bind_eq_bind, Option.bind_some]

theorem run_bind_error (h : x.run.run b = some (.error d, b')) :
    (x >>= f).run.run b = some (.error d, b') := by
  simp only [ExceptT.run_bind, StateT.run_bind, h, Option.bind_eq_bind, Option.bind_some]
  rfl

theorem run_get_bind {f : ByteScan → ByteM β} :
    ((do let s ← get; f s) : ByteM β).run.run b = (f b).run.run b := run_bind_ok rfl

theorem run_pure : (pure a : ByteM α).run.run b = some (.ok a, b) := rfl

end Monad

/-- The scan behind a piece that has been queued. -/
def ByteScan.take (b : ByteScan) (p : Piece) : ByteScan :=
  { b with
    mode := (b.mode.next? p.kind).getD b.mode
    position := b.position + byteLength p.text
    queue := b.queue ++ [⟨p.kind, p.text, b.position⟩]
    isBulk := b.isBulk || Scan.isBulkAction p.kind }

/-- What a run makes of a scan over bytes: its pieces are queued, and its fault ends the step. -/
def outcome (b : ByteScan) (run : Run) : Option (Except Diagnostic Unit × ByteScan) :=
  let passed := run.pieces.foldl ByteScan.take b
  match run.fault with
  | none => some (.ok (), passed)
  | some d => some (.error (d.shift passed.position), passed)

/-- The scan stands between two parts of the name. -/
structure ByteScan.At (b : ByteScan) (before rest : Text) : Prop where
  input : b.input = before ++ rest
  position : b.position = byteLength before

section Parts

variable {b : ByteScan} {before rest text u v t : Text} {kind : Kind} {m within : Mode} {p : Piece}
  {c : Char} {cs : Text} {x : UInt8} {xs : List UInt8}

open ByteScan

theorem ByteScan.At.take (h : b.At before (p.text ++ rest)) :
    (b.take p).At (before ++ p.text) rest where
  input := by rw [List.append_assoc]; exact h.input
  position := by rw [byteLength_append, ← h.position]; rfl

theorem run_slice (h : b.input = u ++ (text ++ v)) :
    (slice (byteLength u) (byteLength u + byteLength text)).run.run b = some (.ok text, b) := by
  rw [slice, run_get_bind, h, slice?_append]
  rfl

theorem run_sliceFrom (h : b.input = u ++ t) :
    (sliceFrom (byteLength u)).run.run b = some (.ok t, b) := by
  rw [sliceFrom, run_get_bind, h, byteLength_append]
  exact run_slice (v := []) (by rw [h, List.append_nil])

theorem run_emit_of_next? (h : b.At before (text ++ rest)) (hn : b.mode.next? kind = some m) :
    (emit kind b.position (b.position + byteLength text)).run.run b =
      some (.ok (), { b with
        mode := m
        position := b.position + byteLength text
        queue := b.queue ++ [⟨kind, text, b.position⟩] }) := by
  rw [emit, run_get_bind, hn]
  simp only [h.position]
  rw [run_bind_ok (run_slice h.input)]
  rfl

/-- **A token is queued** with the text that the scan stands in front of. -/
theorem run_emit (h : b.At before (text ++ rest)) (hn : b.mode.next? kind = some m)
    (hk : Scan.isBulkAction kind = false) :
    (emit kind b.position (b.position + byteLength text)).run.run b =
      some (.ok (), b.take ⟨kind, text⟩) := by
  rw [run_emit_of_next? h hn, ByteScan.take, hn, hk, Bool.or_false]
  rfl

theorem run_emit_separator (h : b.At before ([separator] ++ rest))
    (hn : b.mode.next? .separator = some m) :
    (emit .separator b.position (b.position + 1)).run.run b =
      some (.ok (), b.take ⟨.separator, [separator]⟩) := by
  have hemit := run_emit h hn rfl
  rwa [show byteLength [separator] = 1 from rfl] at hemit

/-! ### Segments -/

theorem toChar_eq_separator_iff (h : ∀ test, IsAscii test → test x.toChar = test c) :
    x.toChar = separator ↔ c = separator := by
  have hs : (x.toChar == separator) = (c == separator) := h _ isAscii_separator
  rw [← beq_iff_eq, hs, beq_iff_eq]

/-- **Where a segment goes on** is told by one byte, and by the text from it on. -/
theorem run_goesOn (hx : ∀ test, IsAscii test → test x.toChar = test c)
    (h : b.input = u ++ c :: cs) :
    (goesOn within (byteLength u) x).run.run b =
      some (.ok (segmentContinues within.accepts (c :: cs)), b) := by
  rw [goesOn, hx _ isAscii_isLower, hx _ isAscii_isDigit, hx _ isAscii_isUpper, segmentContinues]
  split
  · next hc =>
    rw [hc]
    rfl
  · next hc =>
    rw [Bool.eq_false_of_not_eq_true hc, Bool.false_or]
    split
    · next hup =>
      rw [run_bind_ok (run_sliceFrom h), hup, Bool.true_and]
      rfl
    · next hup =>
      rw [Bool.eq_false_of_not_eq_true hup, Bool.false_and]
      rfl

theorem outcome_cons (b : ByteScan) (p : Piece) (run : Run) :
    outcome b { run with pieces := p :: run.pieces } = outcome (b.take p) run := rfl

theorem run_scanSegment_of_goesOn {word : Text} (hx : ∀ test, IsAscii test → test x.toChar = test c)
    (h : b.At before (word ++ c :: cs)) (hc : segmentContinues within.accepts (c :: cs) = true) :
    (scanSegment within kind b.position (b.position + byteLength word) (x :: xs)).run.run b =
      (scanSegment within kind b.position (b.position + byteLength word + 1) xs).run.run b := by
  have hstop : b.position + byteLength word = byteLength (before ++ word) := by
    rw [h.position, byteLength_append]
  have hin : b.input = (before ++ word) ++ c :: cs := by rw [h.input, List.append_assoc]
  rw [scanSegment, hstop, run_bind_ok (run_goesOn hx hin), hc, if_pos rfl]

theorem run_scanSegment_of_stops {word : Text} (hx : ∀ test, IsAscii test → test x.toChar = test c)
    (h : b.At before (word ++ c :: cs)) (hn : b.mode.next? kind = some within)
    (hk : Scan.isBulkAction kind = false) (hc : segmentContinues within.accepts (c :: cs) = false) :
    (scanSegment within kind b.position (b.position + byteLength word) (x :: xs)).run.run b =
      (scanParts within (b.take ⟨kind, word⟩).position (x :: xs)).run.run
        (b.take ⟨kind, word⟩) := by
  have hstop : b.position + byteLength word = byteLength (before ++ word) := by
    rw [h.position, byteLength_append]
  have hin : b.input = (before ++ word) ++ c :: cs := by rw [h.input, List.append_assoc]
  rw [scanSegment, hstop, run_bind_ok (run_goesOn hx hin), hc, if_neg Bool.false_ne_true, ← hstop,
    run_bind_ok (run_emit h hn hk)]
  rfl

theorem mode_take (hn : b.mode.next? p.kind = some m) : (b.take p).mode = m := by
  rw [ByteScan.take, hn]
  rfl

/-- **A path** is passed byte by byte as it is character by character. -/
theorem run_scanSegment {word : Text} (hw : within.isWithinPath = true)
    (h : b.At before (word ++ t)) (hn : b.mode.next? kind = some within)
    (hk : Scan.isBulkAction kind = false) :
    (scanSegment within kind b.position (b.position + byteLength word) (bytesOf t)).run.run b =
      outcome b { (pathTail within.accepts t).2 with
        pieces := ⟨kind, word ++ (pathTail within.accepts t).1⟩ ::
          (pathTail within.accepts t).2.pieces } := by
  fun_induction pathTail within.accepts t generalizing b before word kind with
  | case1 =>
    rw [List.append_nil, show bytesOf [] = [] from rfl, scanSegment]
    exact run_emit h hn hk
  | case2 c cs hc tail =>
    rename_i ih
    obtain ⟨x, xs, hx, htest, hrest⟩ := exists_bytesOf_cons c cs
    obtain ⟨hsize, rfl⟩ := hrest (isAscii_isAlphanum c (isAlphanum_of_segmentContinues hc))
    have hnext : b.position + byteLength word + 1 = b.position + byteLength (word ++ [c]) := by
      rw [byteLength_append, byteLength_cons, byteLength_nil, hsize, Nat.add_assoc]
    have h' : b.At before (word ++ [c] ++ cs) := by rwa [List.append_assoc]
    rw [hx, run_scanSegment_of_goesOn htest h hc, hnext, ih h' hn hk, List.append_assoc]
    rfl
  | case3 c cs hc tail hs =>
    rename_i ih
    obtain ⟨x, xs, hx, htest, hrest⟩ := exists_bytesOf_cons separator (c :: cs)
    obtain ⟨-, rfl⟩ := hrest (by decide)
    obtain ⟨y, ys, hy, htest', hrest'⟩ := exists_bytesOf_cons c cs
    obtain ⟨hsize, rfl⟩ := hrest' (isAscii_isAlpha c hc)
    have hm : (b.take ⟨kind, word⟩).mode = within := mode_take hn
    have hat : (b.take ⟨kind, word⟩).At (before ++ word) ([separator] ++ ([c] ++ cs)) := h.take
    have hn₁ : (b.take ⟨kind, word⟩).mode.next? .separator = some within :=
      hm ▸ (Mode.next?_part hw).1
    have hn₂ : ((b.take ⟨kind, word⟩).take ⟨.separator, [separator]⟩).mode.next? .pathPart =
        some within := by
      rw [mode_take hn₁]
      exact (Mode.next?_part hw).2
    have hstop : (b.take ⟨kind, word⟩).position + 2 =
        ((b.take ⟨kind, word⟩).take ⟨.separator, [separator]⟩).position + byteLength [c] := by
      rw [byteLength_cons, byteLength_nil, hsize]
      rfl
    rw [hx, run_scanSegment_of_stops htest h hn hk (Bool.eq_false_of_not_eq_true hs), hy, scanParts,
      if_pos ((toChar_eq_separator_iff htest).mpr rfl)]
    dsimp only
    rw [if_pos ((htest' _ isAscii_isAlpha).trans hc), run_bind_ok (run_emit_separator hat hn₁),
      hstop]
    refine (ih hat.take hn₂ rfl).trans ?_
    rw [outcome_cons, List.append_nil]
    rfl
  | case4 c cs hc hs =>
    obtain ⟨x, xs, hx, htest, hrest⟩ := exists_bytesOf_cons separator (c :: cs)
    obtain ⟨-, rfl⟩ := hrest (by decide)
    obtain ⟨y, ys, hy, htest', -⟩ := exists_bytesOf_cons c cs
    rw [hx, run_scanSegment_of_stops htest h hn hk (Bool.eq_false_of_not_eq_true hs), hy, scanParts,
      if_pos ((toChar_eq_separator_iff htest).mpr rfl)]
    dsimp only
    rw [if_neg (by rwa [htest' _ isAscii_isAlpha]), List.append_nil]
    rfl
  | case5 hs =>
    obtain ⟨x, xs, hx, htest, hrest⟩ := exists_bytesOf_cons separator []
    obtain ⟨-, rfl⟩ := hrest (by decide)
    rw [hx, run_scanSegment_of_stops htest h hn hk (Bool.eq_false_of_not_eq_true hs),
      scanParts.eq_def]
    dsimp only
    rw [if_pos ((toChar_eq_separator_iff htest).mpr rfl), List.append_nil]
    rfl
  | case6 c cs hs hc =>
    obtain ⟨x, xs, hx, htest, -⟩ := exists_bytesOf_cons c cs
    rw [hx, run_scanSegment_of_stops htest h hn hk (Bool.eq_false_of_not_eq_true hs),
      scanParts.eq_def]
    dsimp only
    rw [if_neg (mt (toChar_eq_separator_iff htest).mp hc), List.append_nil]
    rfl

theorem drop_bytesOf (h : b.At before (c :: cs)) (hc : c.toNat < 128) :
    (bytesOf b.input).drop (b.position + 1) = bytesOf cs := by
  obtain ⟨x, xs, hx, -, hrest⟩ := exists_bytesOf_cons c cs
  obtain ⟨-, rfl⟩ := hrest hc
  rw [h.input, bytesOf_append, hx, h.position, ← length_bytesOf, List.drop_append,
    List.drop_of_length_le (Nat.le_succ _)]
  simp

theorem run_scanPath (h : b.At before (c :: cs)) (hc : c.isAlpha = true) :
    scanPath.run.run b = outcome b (pathRun b.mode (c :: cs)) := by
  rw [scanPath, run_get_bind, pathRun.eq_def]
  cases hw : b.mode.pathMode? with
  | none => rfl
  | some within =>
    have hascii := isAscii_isAlpha c hc
    have hword : byteLength [c] = 1 := by
      rw [byteLength_cons, byteLength_nil, (exists_utf8EncodeChar_eq hascii).1]
    dsimp only
    rw [drop_bytesOf h hascii, ← hword]
    exact run_scanSegment (Mode.isWithinPath_of_pathMode? hw) h hw rfl

/-! ### Limits, separators and actions -/

/-- **A limit** is read as it is in the characters, unless there is none. -/
theorem run_scanLimit (h : b.At before rest) (ha : b.mode.accepts .first = true) :
    scanLimit.run.run b =
      match limitRun? b.settings rest with
      | none => some (.ok false, b)
      | some run => (outcome b run).map fun (result, b) => (result.map fun _ => true, b) := by
  have hin := run_sliceFrom h.input
  rw [← h.position] at hin
  rw [scanLimit, run_get_bind, run_bind_ok hin, limitRun?]
  cases hp : limitWord.isPrefixOf? rest with
  | none => rfl
  | some after =>
    obtain rfl := List.isPrefixOf?_eq_some_iff_append_eq.mp hp
    dsimp only
    by_cases hd : after.takeWhile Char.isDigit ≠ []
    · rw [if_pos hd, if_pos hd]
      cases hn : limitOf? b.settings (after.takeWhile Char.isDigit) with
      | none => rfl
      | some n =>
        have hrest : b.At before
            (limitWord ++ after.takeWhile Char.isDigit ++ after.dropWhile Char.isDigit) := by
          rwa [List.append_assoc, List.takeWhile_append_dropWhile]
        have hnext : b.mode.next? (.first n) = some .limited := if_pos ha
        have hemit := run_emit hrest hnext rfl
        rw [byteLength_append, ← Nat.add_assoc] at hemit
        dsimp only
        rw [run_bind_ok hemit]
        rfl
    · rw [if_neg hd, if_neg hd]
      by_cases he : after = []
      · rw [if_pos he, if_pos he]
        rfl
      · rw [if_neg he, if_neg he]
        by_cases hk : (longestKeyword? endsLimit after).isSome = true
        · rw [if_pos hk, if_pos hk]
          rfl
        · rw [if_neg hk, if_neg hk]
          rfl

theorem run_followsSeparator (h : b.At before rest) :
    followsSeparator.run.run b = some (.ok (before.getLast? == some separator), b) := by
  rw [followsSeparator, run_get_bind]
  cases hl : before.getLast? with
  | none =>
    obtain rfl := List.getLast?_eq_none_iff.mp hl
    rw [if_neg (by rw [h.position]; exact Nat.lt_irrefl 0)]
    rfl
  | some c =>
    obtain ⟨x, hx, htest⟩ := exists_getElem?_bytesOf hl rest
    have hpos : 0 < b.position := by
      have := length_le_byteLength before
      have := List.length_pos_iff.mpr (List.getLast?_isSome.mp (by rw [hl]; rfl))
      rw [h.position]
      omega
    have hbyte : (byteAt (bytesOf b.input) (b.position - 1)).run.run b = some (.ok x, b) := by
      rw [byteAt, h.input, h.position, hx]
      rfl
    rw [if_pos hpos, run_bind_ok hbyte]
    have hs : (x.toChar == separator) = (c == separator) := htest _ isAscii_separator
    rw [hs]
    rfl

theorem run_startsSegment (hx : ∀ test, IsAscii test → test x.toChar = test c)
    (h : b.At before rest) :
    (startsSegment x).run.run b = some (.ok (startsPath before.getLast? c), b) := by
  rw [startsSegment, hx _ isAscii_isUpper, hx _ isAscii_isAlpha, startsPath]
  split
  · next hup =>
    rw [hup]
    rfl
  · next hup =>
    rw [Bool.eq_false_of_not_eq_true hup, Bool.false_or]
    split
    · next ha =>
      rw [ha, Bool.true_and]
      exact run_followsSeparator h
    · next ha =>
      rw [Bool.eq_false_of_not_eq_true ha]
      rfl

theorem getElem?_bytesOf (h : b.At before (c :: cs)) (hc : c.toNat < 128) :
    (bytesOf b.input)[b.position + 1]? = (bytesOf cs).head? := by
  rw [← drop_bytesOf h hc, List.head?_drop]

theorem run_scanOrderSeparator (h : b.At before (separator :: cs)) (hm : b.mode = .directed) :
    scanOrderSeparator.run.run b = outcome b (separatorRun b.settings cs) := by
  rw [scanOrderSeparator, run_get_bind, separatorRun.eq_def]
  split
  · rfl
  · rw [getElem?_bytesOf h (by decide)]
    cases cs with
    | nil => rfl
    | cons d ds =>
      obtain ⟨y, ys, hy, htest, -⟩ := exists_bytesOf_cons d ds
      rw [hy]
      dsimp only [List.head?_cons]
      rw [htest _ isAscii_isAlpha]
      split
      · exact run_emit_separator (m := .orderStart) h (by rw [hm]; rfl)
      · rfl

theorem run_emitAction {a : Action} (h : b.At before (text ++ rest)) (hm : b.mode = .initial)
    (ht : byteLength text = byteLength a.keyword) :
    (emitAction a b.position).run.run b = some (.ok (), b.take (actionPiece a text)) := by
  have hat : ({ b with isBulk := b.isBulk || a.isBulk } : ByteScan).At before (text ++ rest) :=
    ⟨h.input, h.position⟩
  have hn : b.mode.next? (.action a) = some (.afterAction a) := by rw [hm]; rfl
  have hmodify :
      (modify fun s => { s with isBulk := s.isBulk || a.isBulk } : ByteM Unit).run.run b =
        some (.ok (), { b with isBulk := b.isBulk || a.isBulk }) := rfl
  rw [emitAction, run_bind_ok hmodify, ← ht]
  refine (run_emit_of_next? hat hn).trans ?_
  rw [ByteScan.take, actionPiece, hn]
  rfl

theorem capitalizedAction?_cons_eq_none (cs : Text) (hc : c.isUpper = false) :
    capitalizedAction? (c :: cs) = none := by
  rw [capitalizedAction?_eq_none_iff]
  rintro a ⟨r, hr, -⟩
  obtain ⟨d, ds, he, hd⟩ := a.exists_capitalized_eq_cons
  rw [he] at hr
  rw [(List.cons.inj hr).1, hd] at hc
  cases hc

theorem run_emitFound {a : Action} (h : b.At [] (u ++ t)) (hm : b.mode = .initial)
    (ha : capitalizedAction? t = some a) :
    (emitFound a (byteLength u)).run.run b = outcome b (.cut (actionPieces u a)) := by
  obtain ⟨r, rfl, -⟩ := capitalizedAction?_eq_some_iff.mp ha
  have hlen := byteLength_capitalized a
  have hzero : b.position = 0 := h.position
  rw [emitFound, actionPieces]
  by_cases hu : u = []
  · subst hu
    have hat : b.At [] (a.capitalized ++ r) := h
    rw [byteLength_nil, if_neg (Nat.lt_irrefl 0), ← hzero, run_emitAction hat hm hlen]
    rfl
  · have hpos : 0 < byteLength u := by
      have := length_le_byteLength u
      have := List.length_pos_iff.mpr hu
      omega
    have hn : b.mode.next? .preamble = some .initial := by rw [hm]; rfl
    have hemit := run_emit h hn rfl
    have hat : (b.take ⟨.preamble, u⟩).At ([] ++ u) (a.capitalized ++ r) := h.take
    have hlater := run_emitAction hat (mode_take hn) hlen
    rw [hat.position] at hlater
    rw [hzero, Nat.zero_add] at hemit
    rw [if_pos hpos, run_bind_ok hemit, if_neg hu]
    exact hlater

theorem run_scanCapitalized_cons (h : b.At [] (u ++ c :: cs)) (hm : b.mode = .initial) :
    (scanCapitalized (byteLength u) (bytesOf (c :: cs))).run.run b =
      if isNameChar c then
        match capitalizedAction? (c :: cs) with
        | some a => outcome b (.cut (actionPieces u a))
        | none => (scanCapitalized (byteLength (u ++ [c])) (bytesOf cs)).run.run b
      else some (.error (.malformed (byteLength u) Mode.initial.expected), b) := by
  obtain ⟨x, xs, hx, htest, hrest⟩ := exists_bytesOf_cons c cs
  rw [hx, scanCapitalized, htest _ isAscii_isNameChar, htest _ isAscii_isUpper]
  by_cases hc : isNameChar c = true
  · obtain ⟨hsize, rfl⟩ := hrest (isAscii_isNameChar c hc)
    have hlen : byteLength (u ++ [c]) = byteLength u + 1 := by
      rw [byteLength_append, byteLength_cons, byteLength_nil, hsize]
    have hin : b.input = u ++ c :: cs := h.input
    rw [if_pos hc, if_pos hc, hlen]
    by_cases hup : c.isUpper = true
    · rw [if_pos hup, run_bind_ok (run_sliceFrom hin)]
      cases ha : capitalizedAction? (c :: cs) with
      | some a => exact run_emitFound h hm ha
      | none => rfl
    · rw [if_neg hup, capitalizedAction?_cons_eq_none cs (Bool.eq_false_of_not_eq_true hup)]
  · rw [if_neg hc, if_neg hc]
    rfl

/-- **The first action** after a text in which none begins is found as in the characters. -/
theorem run_scanCapitalized (h : b.At [] (u ++ t)) (hm : b.mode = .initial) :
    (scanCapitalized (byteLength u) (bytesOf t)).run.run b =
      match splitAtAction t with
      | .ok (v, a) => outcome b (.cut (actionPieces (u ++ v) a))
      | .error d => some (.error (d.shift (byteLength u)), b) := by
  induction t generalizing u with
  | nil =>
    have hin : b.input = u := by simpa using h.input
    rw [← hin]
    rfl
  | cons c cs ih =>
    rw [run_scanCapitalized_cons h hm, splitAtAction]
    by_cases hc : isNameChar c = true
    · rw [if_pos hc, if_pos hc]
      cases capitalizedAction? (c :: cs) with
      | some a => simp
      | none =>
        have h' : b.At [] (u ++ [c] ++ cs) := by rwa [List.append_assoc]
        dsimp only
        rw [ih h']
        cases splitAtAction cs with
        | ok va => simp
        | error d => simp [Nat.add_comm]
    · rw [if_neg hc, if_neg hc]
      rfl

theorem run_scanAction (h : b.At [] t) (hm : b.mode = .initial) :
    scanAction.run.run b = outcome b (actionRun t) := by
  have hin : b.input = t := h.input
  rw [scanAction, run_get_bind, hin, actionRun]
  cases hl : leadingAction? t with
  | some a =>
    obtain ⟨r, rfl, -⟩ := leadingAction?_eq_some_iff.mp hl
    have hemit := run_emitAction h hm rfl
    rw [h.position] at hemit
    exact hemit
  | none =>
    have hcap := run_scanCapitalized (u := []) h hm
    dsimp only
    rw [byteLength_nil] at hcap
    rw [hcap]
    cases splitAtAction t with
    | ok va =>
      obtain ⟨v, a⟩ := va
      cases v <;> rfl
    | error d =>
      have hzero : b.position = 0 := h.position
      rw [← hzero]
      rfl

/-! ### Runs -/

theorem run_scanPlain (h : b.At before rest) (hr : rest ≠ []) :
    (scanPlain rest).run.run b = outcome b (plainRun b.settings b.mode before.getLast? rest) := by
  obtain ⟨c, cs, rfl⟩ := List.exists_cons_of_ne_nil hr
  obtain ⟨x, xs, hx, htest, -⟩ := exists_bytesOf_cons c cs
  have hbyte : (byteAt (bytesOf (c :: cs)) 0).run.run b = some (.ok x, b) := by
    rw [byteAt, hx]
    rfl
  have hstarts : (if b.mode.accepts .property then startsSegment x else return false).run.run b =
      some (.ok (b.mode.accepts .property && startsPath before.getLast? c), b) := by
    split
    · next ha =>
      rw [ha, Bool.true_and]
      exact run_startsSegment htest h
    · next ha =>
      rw [Bool.eq_false_of_not_eq_true ha]
      rfl
  rw [scanPlain, run_get_bind, run_bind_ok hbyte, run_bind_ok hstarts, plainRun]
  split
  · next hs =>
    exact run_scanPath h (isAlpha_of_startsPath (Bool.and_eq_true _ _ ▸ hs).2)
  · simp only [toChar_eq_separator_iff htest]
    split
    · next hc =>
      subst hc
      split
      · next hm => exact run_scanOrderSeparator h hm
      · split <;> rfl
    · rfl

theorem run_scanClause (h : b.At before rest) (hr : rest ≠ []) :
    scanClause.run.run b =
      outcome b (clauseRun b.settings b.mode b.isBulk before.getLast? rest) := by
  have hin := run_sliceFrom h.input
  rw [← h.position] at hin
  rw [scanClause, run_get_bind, run_bind_ok hin, clauseRun]
  cases hl : (if b.mode.accepts .first then limitRun? b.settings rest else none) with
  | some run =>
    obtain ⟨ha, hl⟩ := Option.ite_none_right_eq_some.mp hl
    have hlimit := run_scanLimit h ha
    rw [hl] at hlimit
    rw [if_pos ha]
    rcases limitRun?_cases hl with ⟨d, rfl⟩ | ⟨n, text, rfl⟩
    · exact run_bind_error hlimit
    · exact (run_bind_ok hlimit).trans run_pure
  | none =>
    have hlimit :
        (if b.mode.accepts .first then scanLimit else return false : ByteM Bool).run.run b =
          some (.ok false, b) := by
      split
      · next ha =>
        have hscan := run_scanLimit h ha
        rw [if_pos ha] at hl
        rwa [hl] at hscan
      · rfl
    rw [run_bind_ok hlimit]
    cases hk : longestKeyword? b.mode.accepts rest with
    | some k =>
      obtain ⟨hmem, ha, ⟨r, rfl, -⟩, -⟩ := longestKeyword?_eq_some_iff.mp hk
      obtain ⟨m, hn⟩ := Keyword.exists_next? hmem ha
      by_cases ho : k.kind = .ordering ∧ b.isBulk = true
      · simp only [if_pos ho]
        rfl
      · simp only [if_neg ho]
        exact run_emit h hn (Keyword.isBulkAction_eq_false hmem)
    | none => exact run_scanPlain h hr

/-- **The next step** over bytes is the next run. -/
theorem run_step (h : b.At before rest) (hi : b.mode = .initial → before = []) :
    step.run.run b = outcome b (nextRun b.settings b.mode b.isBulk before.getLast? rest) := by
  have hlen : byteLength b.input = b.position + byteLength rest := by
    rw [h.input, byteLength_append, h.position]
  rw [step, run_get_bind, nextRun, hlen]
  by_cases hr : rest = []
  · subst hr
    rw [byteLength_nil, Nat.add_zero, if_pos (Nat.le_refl _), if_pos rfl]
    split
    · next ha =>
      have hn : b.mode.next? .finish = some .done := if_pos ha
      have hempty : b.At before ([] ++ []) := h
      have hemit := run_emit hempty hn rfl
      exact hemit
    · rfl
  · have hpos : ¬ b.position + byteLength rest ≤ b.position := by
      have := length_le_byteLength rest
      have := List.length_pos_iff.mpr hr
      omega
    rw [if_neg hpos, if_neg hr]
    split
    · next hm =>
      obtain rfl := hi hm
      exact run_scanAction h hm
    · split
      · rfl
      · exact run_scanClause h hr

end Parts

end DerivedQuery
