import DerivedQuery.Proofs.Beginning

/-!
# Preambles

The text before a capitalized action says nothing. Behind it a name is read as behind the same
action at its start, only further on.

* `Token.shift`, `behindPreamble`: the tokens of a name, further on in another one;
* **`tokenize_and_parse_preamble`**: the tokens, the diagnostics and the query behind a preamble.
-/

namespace DerivedQuery

/-! ## Tokens that are moved -/

/-- The token, `n` bytes further on. -/
def Token.shift (n : Nat) (t : Token) : Token := { t with position := n + t.position }

/-- The token as it is written behind a preamble: an action is capitalized. -/
def Token.recased (t : Token) : Token :=
  match t.kind with
  | .action _ => { t with text := capitalize t.text }
  | _ => t

/-- The tokens of a name behind a preamble, which is a token of its own unless it is empty. -/
def behindPreamble (u : Text) (ts : List Token) : List Token :=
  (if u = [] then [] else [⟨.preamble, u, 0⟩]) ++
    ts.map fun t => t.recased.shift (byteLength u)

section Shift

variable {settings : Settings} {c c' : Cursor} {ps : List Piece}

theorem Cuts.kind_ne_action (h : Cuts settings c ps c') (hi : c.mode ≠ .initial) :
    ∀ p ∈ ps, ∀ a, p.kind ≠ .action a := by
  induction h with
  | nil => exact fun _ hp => absurd hp List.not_mem_nil
  | cons hcut _ ih =>
    refine List.forall_mem_cons.mpr ⟨fun a hk => ?_, ih (hcut.mode_ne_initial hi)⟩
    have hn := hcut.next?
    rw [hk] at hn
    exact hi (Option.ite_none_right_eq_some.mp hn).1

theorem Token.recased_of_ne {t : Token} (h : ∀ a, t.kind ≠ .action a) : t.recased = t := by
  unfold recased
  split
  · next a hk => exact absurd hk (h a)
  · rfl

theorem map_recased_shift_place (h : ∀ p ∈ ps, ∀ a, p.kind ≠ .action a) (k n : Nat) :
    (place n ps).map (fun t => t.recased.shift k) = place (k + n) ps := by
  induction ps generalizing n with
  | nil => rfl
  | cons p ps ih =>
    obtain ⟨hp, hps⟩ := List.forall_mem_cons.mp h
    rw [place_cons, List.map_cons, ih hps, Token.recased_of_ne hp, place_cons, Nat.add_assoc]
    rfl

end Shift

/-! ## Names with a preamble -/

section Preamble

variable {settings : Settings} {a : Action} {r u : Text} {ps : List Piece}

/-- The tokens behind a preamble are those of the name without it, further on. -/
theorem behindPreamble_place (h : ∀ p ∈ ps, ∀ a, p.kind ≠ .action a) (u : Text) (a : Action) :
    behindPreamble u (place 0 (actionPiece a a.keyword :: ps)) =
      place 0 (actionPieces u a ++ ps) := by
  have haction : (Token.recased ⟨.action a, a.keyword, 0⟩).shift (byteLength u) =
      ⟨.action a, a.capitalized, byteLength u⟩ := rfl
  rw [behindPreamble, place_cons, List.map_cons, map_recased_shift_place h, Nat.zero_add,
    actionPiece, haction, ← byteLength_capitalized]
  by_cases hu : u = []
  · simp [hu, actionPieces, actionPiece]
  · simp [hu, actionPieces, actionPiece]

theorem byteLength_actionPieces (u : Text) (a : Action) (ps : List Piece) :
    byteLength (textOf (actionPieces u a ++ ps)) =
      byteLength u + byteLength (textOf (actionPiece a a.keyword :: ps)) := by
  by_cases hu : u = []
  · simp [actionPieces, hu, actionPiece, byteLength_capitalized]
  · simp [actionPieces, hu, actionPiece, byteLength_capitalized]

theorem foldlM_actionPiece (a : Action) :
    (place 0 [actionPiece a a.keyword]).foldlM Draft.add {} = .ok { action := some a } := rfl

theorem foldlM_actionPieces (u : Text) (a : Action) :
    (place 0 (actionPieces u a)).foldlM Draft.add {} = .ok { action := some a } := by
  by_cases hu : u = []
  · rw [actionPieces, if_pos hu]
    rfl
  · rw [actionPieces, if_neg hu]
    rfl

/-- **A preamble only shifts what follows it.** If no action is found in a preamble, the name with
an action behind it is cut as the name that begins with the action, further on: its tokens come
after the preamble, which is a token of its own, with the action capitalized; or the same fault
stops it; and both stand for the same query. -/
theorem tokenize_and_parse_preamble (hu : ∀ c ∈ u, isNameChar c = true)
    (hr : atBoundary r = true) (hl : leadingAction? (u ++ a.capitalized ++ r) = none)
    (hc : ∀ w, w <:+ u → w ≠ [] → capitalizedAction? (w ++ a.capitalized ++ r) = none) :
    tokenize settings (u ++ a.capitalized ++ r) =
        ((tokenize settings (a.keyword ++ r)).map (behindPreamble u)).mapError
          (Diagnostic.shift (byteLength u)) ∧
      parse settings (u ++ a.capitalized ++ r) =
        (parse settings (a.keyword ++ r)).mapError (Diagnostic.shift (byteLength u)) := by
  have hname : Cuts settings (.ofName (a.keyword ++ r)) [actionPiece a a.keyword]
      (.behindAction a r) := (cut_keyword a hr).cuts
  have hname' : Cuts settings (.ofName (u ++ a.capitalized ++ r)) (actionPieces u a)
      (.behindAction a r) := by
    simp only [List.append_assoc] at hl hc ⊢
    have ha : capitalizedAction? (a.capitalized ++ r) = some a :=
      capitalizedAction?_eq_some_iff.mpr (leads_append_iff.mpr hr)
    exact cuts_actionPieces hr hl (splitAtAction_append_eq_ok_iff.mpr ⟨ha, hu, hc⟩)
  -- both scans go on from one cursor, which they have reached with one draft
  have htokens : tokenize settings (u ++ a.capitalized ++ r) =
      ((tokenize settings (a.keyword ++ r)).map (behindPreamble u)).mapError
        (Diagnostic.shift (byteLength u)) := by
    cases ht : tokenize settings (a.keyword ++ r) with
    | ok ts =>
      obtain ⟨qs, c, hcuts, hdone, rfl⟩ := hname.tokenize_ok_iff.mp ht
      rw [hname'.tokenize_ok_iff.mpr ⟨qs, c, hcuts, hdone, rfl⟩]
      exact congrArg Except.ok
        (behindPreamble_place (hcuts.kind_ne_action a.afterAction_ne_initial) u a).symm
    | error e =>
      obtain ⟨qs, c, e', hcuts, hdone, he, rfl⟩ := hname.tokenize_error_iff.mp ht
      rw [hname'.tokenize_error_iff.mpr ⟨qs, c, e', hcuts, hdone, he, rfl⟩, byteLength_actionPieces]
      exact congrArg Except.error (Diagnostic.shift_shift _ _ _).symm
  refine ⟨htokens, ?_⟩
  cases hp : parse settings (a.keyword ++ r) with
  | ok q =>
    rw [hname.parse_ok_iff (foldlM_actionPiece a)] at hp
    exact (hname'.parse_ok_iff (foldlM_actionPieces u a)).mpr hp
  | error e =>
    rw [parse_eq_error_iff.mp hp] at htokens
    exact parse_eq_error_iff.mpr htokens

theorem tokenize_and_parse_findingsGetter :
    (∀ c ∈ "findingsGetter_".toList, isNameChar c = true) ∧
      (∀ r ∈ ["ByAge".toList, "ByAge_".toList], atBoundary r = true ∧
        leadingAction? ("findingsGetter_".toList ++ Action.find.capitalized ++ r) = none ∧
        ∀ w, w <:+ "findingsGetter_".toList → w ≠ [] →
          capitalizedAction? (w ++ Action.find.capitalized ++ r) = none) ∧
      tokenize {} ("findingsGetter_".toList ++ Action.find.capitalized ++ "ByAge".toList) =
        .ok [⟨.preamble, "findingsGetter_".toList, 0⟩, ⟨.action .find, "Find".toList, 15⟩,
          ⟨.criteria, "By".toList, 19⟩, ⟨.pathStart, "Age".toList, 21⟩, ⟨.finish, [], 24⟩] ∧
      parse {} ("findingsGetter_".toList ++ Action.find.capitalized ++ "ByAge".toList) = .ok
        { action := .find
          criteria := [⟨none, { property := ⟨["age".toList], by decide, by decide⟩ }⟩] } ∧
      parse {} ("findingsGetter_".toList ++ Action.find.capitalized ++ "ByAge_".toList) =
        .error (.danglingSeparator 24) := by
  have hu : ∀ c ∈ "findingsGetter_".toList, isNameChar c = true :=
    List.all_eq_true.mp (by decide +kernel)
  have hr : ∀ r ∈ ["ByAge".toList, "ByAge_".toList], atBoundary r = true ∧
      leadingAction? ("findingsGetter_".toList ++ Action.find.capitalized ++ r) = none ∧
      ∀ w, w <:+ "findingsGetter_".toList → w ≠ [] →
        capitalizedAction? (w ++ Action.find.capitalized ++ r) = none := by
    simp only [← List.mem_tails]
    decide +kernel
  have ht : tokenize {} (Action.find.keyword ++ "ByAge".toList) =
      .ok [⟨.action .find, "find".toList, 0⟩, ⟨.criteria, "By".toList, 4⟩,
        ⟨.pathStart, "Age".toList, 6⟩, ⟨.finish, [], 9⟩] := by decide +kernel
  have hp : parse {} (Action.find.keyword ++ "ByAge".toList) = .ok
      { action := .find
        criteria := [⟨none, { property := ⟨["age".toList], by decide, by decide⟩ }⟩] } := by
    decide +kernel
  have he : parse {} (Action.find.keyword ++ "ByAge_".toList) = .error (.danglingSeparator 9) := by
    decide +kernel
  obtain ⟨hb, hl, hc⟩ := hr "ByAge".toList (by simp)
  obtain ⟨hb', hl', hc'⟩ := hr "ByAge_".toList (by simp)
  obtain ⟨htokens, hok⟩ := tokenize_and_parse_preamble hu hb hl hc
  obtain ⟨-, herr⟩ := tokenize_and_parse_preamble hu hb' hl' hc'
  rw [ht] at htokens
  rw [hp] at hok
  rw [he] at herr
  exact ⟨hu, hr, htokens, hok, herr⟩

end Preamble

end DerivedQuery
