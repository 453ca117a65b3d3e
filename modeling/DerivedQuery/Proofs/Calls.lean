import DerivedQuery.Proofs.Transcript

/-!
# Calls of a scan

A scan is ahead of what it has handed out. Until a call fails, the tokens it has handed out and
those it has queued tell where it stands; afterwards nothing follows.

* `Scan.calls`, `Scan.handedOut`: the results of several calls, and the tokens among them;
* `Scan.Accounts`: tokens that tell where a scan stands; **`Cuts.accounts`**: those of lexemes do;
* `Stands`, **`Stands.next`**: a scan has cut what it hands out, and so it has after the next call;
* `Scan.IsOver`: a scan that hands out nothing any more;
* **`accounts_calls`**: both, after any number of calls.
-/

namespace DerivedQuery

namespace Scan

/-! ## Calls -/

/-- The results of the next `n` calls of `next`, and the scan after them. -/
def calls : (n : Nat) → Scan → List (Except Diagnostic (Option Token)) × Scan
  | 0, s => ([], s)
  | n + 1, s =>
    let later := calls n s.next.2
    (s.next.1 :: later.1, later.2)

/-- The tokens among the results of calls. -/
def handedOut (results : List (Except Diagnostic (Option Token))) : List Token :=
  results.filterMap fun
    | .ok t => t
    | .error _ => none

/-- The tokens tell where the scan of the name stands. -/
structure Accounts (name : Text) (tokens : List Token) (s : Scan) : Prop where
  /-- Their texts are what has been cut. -/
  text : name = tokens.flatMap Token.text ++ s.rest
  position : s.position = byteLength (tokens.flatMap Token.text)
  /-- Each begins where those before it end. -/
  placed : ∀ before t after, tokens = before ++ t :: after →
    t.position = byteLength (before.flatMap Token.text)
  /-- The table of modes leads through them. -/
  mode : tokens.foldlM (fun m t => m.next? t.kind) .initial = some s.mode
  isBulk : s.isBulk = true ↔ ∃ t ∈ tokens, t.kind = .action .update ∨ t.kind = .action .delete
  finish : (∃ t ∈ tokens, t.kind = .finish) ↔ s.mode = .done
  /-- Nothing stands behind the end of the name. -/
  last : ∀ before t after, tokens = before ++ t :: after → t.kind = .finish →
    after = [] ∧ t.text = [] ∧ t.position = byteLength name

/-- Nothing is queued and nothing follows. -/
structure IsOver (s : Scan) : Prop where
  queue : s.queue = []
  mode : s.mode = .done

theorem IsOver.next {s : Scan} (h : s.IsOver) : s.next = (.ok none, s) := by
  rw [Scan.next, if_neg fun hs => hs.2 h.mode, pop, h.queue]

theorem IsOver.calls {s : Scan} (h : s.IsOver) (n : Nat) :
    s.calls n = (List.replicate n (.ok none), s) := by
  induction n with
  | zero => rfl
  | succ n ih => rw [Scan.calls, h.next, ih, List.replicate_succ]

end Scan

/-! ## What the tokens of lexemes tell -/

section Lexemes

variable {settings : Settings} {name : Text} {c c' : Cursor} {ps qs : List Piece} {n : Nat}
  {k : Kind} {m : Mode}

theorem flatMap_text_place (n : Nat) (ps : List Piece) :
    (place n ps).flatMap Token.text = textOf ps := by
  induction ps generalizing n with
  | nil => rfl
  | cons p ps ih => rw [place_cons, List.flatMap_cons, ih, textOf_cons]

theorem exists_of_place_eq_append {us vs : List Token} (h : place n ps = us ++ vs) :
    ∃ qs rs, ps = qs ++ rs ∧ us = place n qs ∧ vs = place (n + byteLength (textOf qs)) rs := by
  induction us generalizing n ps with
  | nil => exact ⟨[], ps, rfl, rfl, h.symm⟩
  | cons u us ih =>
    cases ps with
    | nil => cases h
    | cons p ps =>
      rw [place_cons, List.cons_append, List.cons.injEq] at h
      obtain ⟨rfl, h⟩ := h
      obtain ⟨qs, rs, rfl, rfl, rfl⟩ := ih h
      exact ⟨p :: qs, rs, rfl, rfl, by rw [textOf_cons, byteLength_append, Nat.add_assoc]⟩

theorem Cuts.exists_of_append (h : Cuts settings c (ps ++ qs) c') :
    ∃ c₁, Cuts settings c ps c₁ ∧ Cuts settings c₁ qs c' := by
  induction ps generalizing c with
  | nil => exact ⟨c, .nil c, h⟩
  | cons p ps ih =>
    cases h with
    | cons h t =>
      obtain ⟨c₁, h₁, h₂⟩ := ih t
      exact ⟨c₁, .cons h h₁, h₂⟩

theorem Cuts.foldlM_next? (h : Cuts settings c ps c') (n : Nat) :
    (place n ps).foldlM (fun m t => m.next? t.kind) c.mode = some c'.mode := by
  induction h generalizing n with
  | nil => rfl
  | cons h _ ih =>
    rw [place_cons, List.foldlM_cons, h.next?]
    exact ih _

theorem isBulkAction_eq_true_iff :
    Scan.isBulkAction k = true ↔ k = .action .update ∨ k = .action .delete := by
  cases k with
  | action a => cases a <;> decide
  | _ => simp [Scan.isBulkAction]

theorem Cuts.isBulk_iff (h : Cuts settings c ps c') (n : Nat) :
    c'.isBulk = true ↔ c.isBulk = true ∨
      ∃ t ∈ place n ps, t.kind = .action .update ∨ t.kind = .action .delete := by
  induction h generalizing n with
  | nil => simp
  | @cons c p c₁ ps c' h _ ih =>
    rw [ih (n + byteLength p.text), h.isBulk, Bool.or_eq_true, isBulkAction_eq_true_iff, or_assoc]
    simp only [place_cons, List.mem_cons, exists_eq_or_imp]

theorem Cuts.finish_iff (h : Cuts settings c ps c') (hc : c.mode ≠ .done) (n : Nat) :
    (∃ t ∈ place n ps, t.kind = .finish) ↔ c'.mode = .done := by
  induction h generalizing n with
  | nil => simp [hc]
  | @cons c p c₁ ps c' h t ih =>
    have hn := h.next?
    simp only [place_cons, List.mem_cons, exists_eq_or_imp]
    by_cases hp : p.kind = .finish
    · have hd : c₁.mode = .done := Mode.eq_done_of_finish (hp ▸ hn)
      cases t with
      | nil => exact iff_of_true (.inl hp) hd
      | cons h' => exact absurd h' (stuck_of_done hd _ _)
    · rw [ih fun hd => hp (Mode.eq_finish_of_done (hd ▸ hn))]
      exact or_iff_right hp

/-- **The tokens of the lexemes** that have been cut off a name tell where its scan stands. -/
theorem Cuts.accounts (h : Cuts settings (.ofName name) ps c) (q : List Token) :
    (c.scan settings (byteLength (textOf ps)) q).Accounts name (place 0 ps) where
  text := by
    rw [flatMap_text_place]
    exact h.rest_eq
  position := by
    rw [flatMap_text_place]
    rfl
  placed before t after he := by
    obtain ⟨qs, rs, -, rfl, ht⟩ := exists_of_place_eq_append he
    rw [flatMap_text_place]
    cases rs with
    | nil => cases ht
    | cons p rs =>
      rw [place_cons, List.cons.injEq] at ht
      rw [ht.1, Nat.zero_add]
  mode := h.foldlM_next? 0
  isBulk := by
    refine (h.isBulk_iff 0).trans (or_iff_right ?_)
    exact Bool.false_ne_true
  finish := h.finish_iff nofun 0
  last before t after he hk := by
    obtain ⟨qs, rs, rfl, rfl, ht⟩ := exists_of_place_eq_append he
    cases rs with
    | nil => cases ht
    | cons p rs =>
      rw [place_cons, List.cons.injEq] at ht
      obtain ⟨rfl, rfl⟩ := ht
      have hk : p.kind = .finish := hk
      obtain ⟨c₁, hfront, hback⟩ := h.exists_of_append
      cases hback with
      | @cons _ _ c₂ _ _ hcut hrest =>
        obtain ⟨htext, hend⟩ := hcut.lexeme.of_finish hk
        have hd : c₂.mode = .done := Mode.eq_done_of_finish (hk ▸ hcut.next?)
        have hname : name = textOf qs := by
          have he := hfront.rest_eq
          rwa [hcut.rest, htext, hend, List.append_nil, List.append_nil] at he
        cases hrest with
        | nil => exact ⟨rfl, htext, by rw [Nat.zero_add, hname]⟩
        | cons h' => exact absurd h' (stuck_of_done hd _ _)

end Lexemes

/-! ## One call and many -/

/-- The scan stands behind lexemes of the name, which it has handed out or queued. -/
def Stands (settings : Settings) (name : Text) (handed : List Token) (s : Scan) : Prop :=
  ∃ ps c q, Cuts settings (.ofName name) ps c ∧ AtRun c ∧ handed ++ q = place 0 ps ∧
    s = c.scan settings (byteLength (textOf ps)) q

section Calls

variable {settings : Settings} {name : Text} {handed : List Token} {s : Scan} {n : Nat}

theorem stands_ofName (settings : Settings) (name : Text) :
    Stands settings name [] (.ofName settings name) :=
  ⟨[], .ofName name, [], .nil _, partPiece?_eq_none rfl, rfl, rfl⟩

theorem Stands.accounts (h : Stands settings name handed s) :
    s.Accounts name (handed ++ s.queue) := by
  obtain ⟨ps, c, q, hcuts, -, hq, rfl⟩ := h
  have hqueue : handed ++ (c.scan settings (byteLength (textOf ps)) q).queue = place 0 ps := hq
  rw [hqueue]
  exact hcuts.accounts q

/-- **The next call** hands out the next token, if there is one, and the scan stands behind it; or
it fails, and the scan is over. -/
theorem Stands.next (h : Stands settings name handed s) :
    (∃ t, s.next.1 = .ok t ∧ Stands settings name (handed ++ t.toList) s.next.2) ∨
      (∃ d, s.next.1 = .error d) ∧ s.next.2.IsOver := by
  obtain ⟨ps, c, q, hcuts, hc, hq, rfl⟩ := h
  cases q with
  | cons t q =>
    rw [next_scan_cons]
    exact .inl ⟨some t, rfl, ps, c, q, hcuts, hc, by simpa using hq, rfl⟩
  | nil =>
    by_cases hm : c.mode = .done
    · have hover : (c.scan settings (byteLength (textOf ps)) []).IsOver := ⟨rfl, hm⟩
      rw [hover.next]
      exact .inl ⟨none, rfl, ps, c, [], hcuts, hc, by simpa using hq, rfl⟩
    · obtain ⟨ps', c', hcuts', hs, -, hstep⟩ :=
        step_scan settings hc hm (byteLength (textOf ps)) []
      rcases hstep with ⟨hn, hne, hc'⟩ | ⟨e, hd, -, -⟩
      · obtain ⟨t, q, ht⟩ := exists_place_eq_cons (n := byteLength (textOf ps)) hne
        rw [next_scan_of_step hm hn, hs, ht]
        refine .inl ⟨some t, rfl, ps ++ ps', c', q, hcuts.append hcuts', hc', ?_, ?_⟩
        · rw [List.append_nil] at hq
          rw [place_append, Nat.zero_add, ht, hq, List.append_assoc]
          rfl
        · rw [textOf_append, byteLength_append]
          rfl
      · rw [next_scan_of_fault hm hd]
        exact .inr ⟨⟨_, rfl⟩, rfl, rfl⟩

theorem Stands.calls (h : Stands settings name handed s) (n : Nat) :
    ((∀ r ∈ (s.calls n).1, ∃ t, r = .ok t) →
        Stands settings name (handed ++ Scan.handedOut (s.calls n).1) (s.calls n).2) ∧
      ((∃ r ∈ (s.calls n).1, ∃ d, r = .error d) → (s.calls n).2.IsOver) := by
  induction n generalizing handed s with
  | zero =>
    refine ⟨fun _ => ?_, fun ⟨r, hr, _⟩ => absurd hr List.not_mem_nil⟩
    simpa [Scan.calls, Scan.handedOut] using h
  | succ n ih =>
    simp only [Scan.calls, List.mem_cons, forall_eq_or_imp, exists_eq_or_imp]
    rcases h.next with ⟨t, ht, hnext⟩ | ⟨⟨d, hd⟩, hover⟩
    · obtain ⟨hok, herr⟩ := ih hnext
      refine ⟨fun hall => ?_, fun he => herr (he.resolve_left ?_)⟩
      · have hstands := hok hall.2
        have htokens : Scan.handedOut (s.next.1 :: (s.next.2.calls n).1) =
            t.toList ++ Scan.handedOut (s.next.2.calls n).1 := by
          rw [ht]
          cases t <;> rfl
        rwa [htokens, ← List.append_assoc]
      · rw [ht]
        exact nofun
    · rw [hover.calls, hd]
      exact ⟨fun hall => absurd hall.1 nofun, fun _ => hover⟩

/-- **After any number of calls** of a scan of a name: if none has failed, the tokens that have been
handed out and those that are queued tell where the scan stands. If one has failed, nothing is
queued, the mode is the one at the end, and no later call hands out a token or changes the scan. -/
theorem accounts_calls {results : List (Except Diagnostic (Option Token))}
    (h : (Scan.ofName settings name).calls n = (results, s)) :
    ((∀ r ∈ results, ∃ t, r = .ok t) →
        s.Accounts name (Scan.handedOut results ++ s.queue)) ∧
      ((∃ r ∈ results, ∃ d, r = .error d) →
        s.queue = [] ∧ s.mode = .done ∧
          ∀ k, s.calls k = (List.replicate k (.ok none), s)) := by
  obtain ⟨hok, herr⟩ := (stands_ofName settings name).calls n
  rw [h] at hok herr
  refine ⟨fun hall => (hok hall).accounts, fun he => ?_⟩
  have hover := herr he
  exact ⟨hover.queue, hover.mode, hover.calls⟩

theorem accounts_calls_myFindByHome_zip :
    (∃ results s, (Scan.ofName {} "myFindByHome_zip".toList).calls 4 = (results, s) ∧
      (∀ r ∈ results, ∃ t, r = .ok t) ∧ s.queue.map Token.kind = [.separator, .pathPart] ∧
      s.Accounts "myFindByHome_zip".toList (Scan.handedOut results ++ s.queue)) ∧
    ∃ results s, (Scan.ofName {} "deleteByHome_".toList).calls 3 = (results, s) ∧
      (∃ r ∈ results, ∃ d, r = .error d) ∧ s.position = 12 ∧ s.isBulk = true ∧
      s.queue = [] ∧ s.mode = .done ∧ ∀ k, s.calls k = (List.replicate k (.ok none), s) := by
  have h : (Scan.ofName {} "myFindByHome_zip".toList).calls 4 =
      ([.ok (some ⟨.preamble, "my".toList, 0⟩), .ok (some ⟨.action .find, "Find".toList, 2⟩),
          .ok (some ⟨.criteria, "By".toList, 6⟩), .ok (some ⟨.pathStart, "Home".toList, 8⟩)],
        { settings := {}, mode := .criterion, position := 16, previous := some 'p', rest := [],
          queue := [⟨.separator, ['_'], 12⟩, ⟨.pathPart, "zip".toList, 13⟩],
          isBulk := false }) := by
    decide +kernel
  have h' : (Scan.ofName {} "deleteByHome_".toList).calls 3 =
      ([.ok (some ⟨.action .delete, "delete".toList, 0⟩), .ok (some ⟨.criteria, "By".toList, 6⟩),
          .error (.danglingSeparator 12)],
        { settings := {}, mode := .done, position := 12, previous := some 'e', rest := ['_']
          queue := [], isBulk := true }) := by
    decide +kernel
  have hok := (accounts_calls h).1 (by simp)
  have herr := (accounts_calls h').2 (by simp)
  exact ⟨⟨_, _, h, by simp, rfl, hok⟩, _, _, h', by simp, rfl, rfl, herr⟩

end Calls

end DerivedQuery
