import DerivedQuery.Proofs.ByteRun
import DerivedQuery.Proofs.Exchange

/-!
# Calls over bytes

A scan over bytes and a scan over characters that begin with the same name stay together.

* `ByteScan.ofScan`: the scan over bytes that stands where a scan over characters does;
* `Follows`: a scan that stands behind the first part of the name, or that is over;
* `next_ofScan`: one call of both;
* **`calls_ofName`**: any number of calls. No slice and no byte is missing.
-/

namespace DerivedQuery

/-- The scan over bytes that stands where the scan over characters does. -/
def ByteScan.ofScan (name : Text) (s : Scan) : ByteScan :=
  ⟨s.settings, name, s.mode, s.position, s.queue, s.isBulk⟩

/-- A run begins at the cursor, which stands behind the first part of the name. -/
structure Cursor.After (name before : Text) (c : Cursor) : Prop where
  name : name = before ++ c.rest
  previous : c.previous = before.getLast?
  initial : c.mode = .initial → before = []
  atRun : AtRun c

section Simulation

variable {settings : Settings} {name before : Text} {c c' : Cursor} {p : Piece} {ps : List Piece}
  {run : Run} {n : Nat} {q : List Token} {s : Scan}

open ByteScan

theorem foldl_take_ofScan (h : Cuts settings c ps c') :
    ps.foldl ByteScan.take (ofScan name (c.scan settings n q)) =
      ofScan name (c'.scan settings (n + byteLength (textOf ps)) (q ++ place n ps)) := by
  induction h generalizing n q with
  | nil => simp
  | @cons c p c₁ ps c' h t ih =>
    have htake : (ofScan name (c.scan settings n q)).take p =
        ofScan name (c₁.scan settings (n + byteLength p.text) (q ++ [⟨p.kind, p.text, n⟩])) := by
      simp only [ByteScan.take, ofScan, Cursor.scan, h.next?, h.isBulk, Option.getD_some]
    rw [List.foldl_cons, htake, ih, textOf_cons, byteLength_append, place_cons, Nat.add_assoc,
      List.append_assoc]
    rfl

theorem actionRun_pieces {t : Text} (h : (actionRun t).fault = none) :
    ∃ us a word, (actionRun t).pieces = us ++ [actionPiece a word] := by
  rw [actionRun] at h ⊢
  split
  · exact ⟨[], _, _, rfl⟩
  · split
    · exact ⟨[], _, _, rfl⟩
    · exact ⟨[_], _, _, rfl⟩
    · simp_all [Run.stop]

theorem Cuts.mode_ne_initial_of_run (h : Cuts settings c run.pieces c')
    (hr : nextRun settings c.mode c.isBulk c.previous c.rest = run) (hf : run.fault = none) :
    c'.mode ≠ .initial := by
  by_cases hi : c.mode = .initial
  · rw [nextRun, hi] at hr
    split at hr
    · subst hr
      cases hf
    · rw [if_pos rfl] at hr
      subst hr
      obtain ⟨us, a, word, hp⟩ := actionRun_pieces hf
      rw [hp] at h
      obtain ⟨c₁, -, hlast⟩ := h.exists_of_append
      cases hlast with
      | cons hcut hnil =>
        cases hnil
        intro hm
        cases (Mode.of_next? hcut.next?).1 hm
  · exact h.mode_ne_initial hi

theorem at_ofScan (h : c.After name before) :
    (ofScan name (c.scan settings (byteLength before) q)).At before c.rest :=
  ⟨h.name, rfl⟩

/-- **The next step** over bytes is the next step over characters. -/
theorem run_step_ofScan (h : c.After name before) (hm : c.mode ≠ .done) :
    step.run.run (ofScan name (c.scan settings (byteLength before) q)) =
      some ((match (c.scan settings (byteLength before) q).step.2 with
        | none => .ok ()
        | some d => .error d), ofScan name (c.scan settings (byteLength before) q).step.1) ∧
      ((c.scan settings (byteLength before) q).step.2 = none →
        ∃ before' q', ∃ c' : Cursor, c'.After name before' ∧
          (c.scan settings (byteLength before) q).step.1 =
            c'.scan settings (byteLength before') q') := by
  obtain ⟨c', hcuts, hok, -⟩ := isRow_nextRun settings h.atRun hm
  generalize hrun : nextRun settings c.mode c.isBulk c.previous c.rest = run at hcuts hok
  have hbytes : step.run.run (ofScan name (c.scan settings (byteLength before) q)) =
      outcome (ofScan name (c.scan settings (byteLength before) q)) run := by
    rw [← hrun, h.previous]
    exact run_step (at_ofScan h) h.initial
  obtain ⟨hstep, -⟩ := step_scan_of_cuts (n := byteLength before) (q := q) hrun hcuts
  rw [hbytes, hstep, outcome, foldl_take_ofScan hcuts]
  constructor
  · cases run.fault <;> rfl
  · intro hf
    have hf : run.fault = none := Option.map_eq_none_iff.mp hf
    refine ⟨before ++ textOf run.pieces, q ++ place (byteLength before) run.pieces, c',
      ⟨?_, ?_, ?_, (hok hf).2⟩, ?_⟩
    · rw [List.append_assoc, ← hcuts.rest_eq, h.name]
    · rw [hcuts.previous_eq, h.previous, List.getLast?_append]
    · exact fun hi => absurd hi (hcuts.mode_ne_initial_of_run hrun hf)
    · rw [byteLength_append]

/-- The scan stands behind the first part of the name, or it is over. -/
def Follows (name : Text) (s : Scan) : Prop :=
  s.IsOver ∨ ∃ before q, ∃ c : Cursor, c.After name before ∧
    s = c.scan s.settings (byteLength before) q

theorem follows_ofName (settings : Settings) (name : Text) :
    Follows name (Scan.ofName settings name) :=
  .inr ⟨[], [], .ofName name, ⟨rfl, rfl, fun _ => rfl, partPiece?_eq_none rfl⟩, rfl⟩

theorem pop_ofScan (s : Scan) : (ofScan name s).pop = (s.pop.1, ofScan name s.pop.2) := by
  obtain ⟨_, _, _, _, _, queue, _⟩ := s
  cases queue <;> rfl

theorem Follows.pop (h : Follows name s) : Follows name s.pop.2 := by
  rcases h with hover | ⟨before, q, c, hc, hs⟩
  · refine .inl ?_
    rw [Scan.pop, hover.queue]
    exact hover
  · rw [hs]
    cases q with
    | nil => exact .inr ⟨before, [], c, hc, rfl⟩
    | cons t q => exact .inr ⟨before, q, c, hc, rfl⟩

/-- **The next call** over bytes is the next call over characters. -/
theorem next_ofScan (h : Follows name s) :
    (ofScan name s).next = some (s.next.1, ofScan name s.next.2) ∧ Follows name s.next.2 := by
  by_cases hstep : s.queue = [] ∧ s.mode ≠ .done
  · obtain ⟨before, q, c, hc, hs⟩ := h.resolve_left fun hover => hstep.2 hover.mode
    generalize s.settings = settings at hs
    subst hs
    obtain rfl : q = [] := hstep.1
    obtain ⟨hbytes, hlater⟩ :
        ByteScan.step.run.run (ofScan name (c.scan settings (byteLength before) [])) = _ ∧ _ :=
      run_step_ofScan hc hstep.2
    have hif : (ofScan name (c.scan settings (byteLength before) [])).queue = [] ∧
        (ofScan name (c.scan settings (byteLength before) [])).mode ≠ .done := hstep
    rw [Scan.next, if_pos hstep, ByteScan.next, if_pos hif, hbytes]
    generalize (c.scan settings (byteLength before) []).step = result at hlater ⊢
    obtain ⟨s', d⟩ := result
    cases d with
    | some d => exact ⟨rfl, .inl ⟨rfl, rfl⟩⟩
    | none =>
      obtain ⟨before', q', c', hc', rfl⟩ := hlater rfl
      refine ⟨?_, Follows.pop (.inr ⟨before', q', c', hc', rfl⟩)⟩
      simp only [Option.bind_eq_bind, Option.bind_some, pop_ofScan]
      rfl
  · have hif : ¬ ((ofScan name s).queue = [] ∧ (ofScan name s).mode ≠ .done) := hstep
    rw [Scan.next, if_neg hstep, ByteScan.next, if_neg hif, pop_ofScan]
    exact ⟨rfl, h.pop⟩

/-- **No slice and no byte is missing**, whatever the name, the settings and the number of calls:
the scan over bytes has a result, which is the one of the scan over characters. -/
theorem calls_ofName (settings : Settings) (name : Text) (n : Nat) :
    (ByteScan.ofName settings name).calls n =
      some (((Scan.ofName settings name).calls n).1,
        ofScan name ((Scan.ofName settings name).calls n).2) := by
  have key : ∀ s, Follows name s →
      (ofScan name s).calls n = some ((s.calls n).1, ofScan name (s.calls n).2) := by
    induction n with
    | zero => exact fun s _ => rfl
    | succ n ih =>
      intro s hs
      obtain ⟨hnext, hs'⟩ := next_ofScan hs
      rw [ByteScan.calls, hnext]
      simp only [Option.bind_eq_bind, Option.bind_some, ih _ hs']
      rfl
  exact key _ (follows_ofName settings name)

end Simulation

end DerivedQuery
