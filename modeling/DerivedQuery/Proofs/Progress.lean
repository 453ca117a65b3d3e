import DerivedQuery.Proofs.Assembly
import DerivedQuery.Proofs.Calls

/-!
# Scans progress

A call that finds the queue empty cuts at least a byte, or the end of the name, unless it fails. So
a scan never ends in silence, and what it hands out is bounded by the length of the name.

* `Scan.Progress`: what such a call comes to; **`Stands.progress`**: there is no other outcome;
* `Stands.isOver_of_next`: nothing is handed out only where the scan is over;
* `Stands.length_handedOut_le`: one token for each byte at most, and the end of the name;
* `Scan.Loop`: a loop of calls without a bound on their number; `exists_loop`: it comes to an end;
* **`progress_calls`**: all of it, after any number of calls.
-/

namespace DerivedQuery

namespace Scan

/-- What a call comes to that finds the queue empty: it fails, it cuts the end of the name, or what
it cuts takes some of the name. -/
inductive Progress (s : Scan) : Prop
  | fails {d} (h : s.next.1 = .error d)
  | ends (h : s.next = (.ok (some ⟨.finish, [], s.position⟩), { s with mode := .done }))
  | advances {t s'} (h : s.next = (.ok (some t), s')) (ht : ∀ u ∈ t :: s'.queue, u.text ≠ [])
    (hp : s.position < s'.position)

/-- A loop calls `next` until no token is handed out, and puts each token into a value. It ends
after the given number of calls with the value, or with the diagnostic of a call or of a token. -/
inductive Loop {α : Type} (add : α → Token → Except Diagnostic α) :
    Nat → Scan → α → Except Diagnostic α → Prop
  | fails {s a d} (h : s.next.1 = .error d) : Loop add 1 s a (.error d)
  | over {s a} (h : s.next.1 = .ok none) : Loop add 1 s a (.ok a)
  | refuses {s a t d} (h : s.next.1 = .ok (some t)) (ht : add a t = .error d) :
    Loop add 1 s a (.error d)
  | takes {s a t b n r} (h : s.next.1 = .ok (some t)) (ht : add a t = .ok b)
    (hl : Loop add n s.next.2 b r) : Loop add (n + 1) s a r

/-- Tokens one after the other. -/
def collect (ts : List Token) (t : Token) : Except Diagnostic (List Token) := .ok (ts ++ [t])

end Scan

/-! ## One call -/

section Run

variable {settings : Settings} {c c' : Cursor} {run : Run} {p : Piece}

theorem kind_of_mem_pathTail {accepts : Category → Bool} {t : Text}
    (h : p ∈ (pathTail accepts t).2.pieces) : p.kind = .separator ∨ p.kind = .pathPart := by
  fun_induction pathTail accepts t with
  | case1 => cases h
  | case2 c cs hc tail ih => exact ih h
  | case3 d ds hd tail hc ih =>
    rcases List.mem_cons.mp h with rfl | h
    · exact .inl rfl
    · rcases List.mem_cons.mp h with rfl | h
      · exact .inr rfl
      · exact ih h
  | case4 => cases h
  | case5 => cases h
  | case6 => cases h

theorem kind_of_mem_pathRun {m within : Mode} {t : Text} (hw : m.pathMode? = some within)
    (ht : t ≠ []) (h : p ∈ (pathRun m t).pieces) : p.kind ≠ .finish := by
  obtain ⟨d, ds, rfl⟩ := List.exists_cons_of_ne_nil ht
  simp only [pathRun, hw] at h
  intro hfinish
  rcases List.mem_cons.mp h with rfl | h
  · cases hfinish
  · rcases kind_of_mem_pathTail h with hk | hk <;> cases hk.symm.trans hfinish

/-- The run that leads behind the end of the name is the end alone. -/
theorem Cuts.pieces_eq_finish (h : Cuts settings c run.pieces c')
    (hr : nextRun settings c.mode c.isBulk c.previous c.rest = run) (hm : c.mode ≠ .done)
    (hd : c'.mode = .done) : run.pieces = [⟨.finish, []⟩] := by
  obtain ⟨t, ht, hk⟩ := (h.finish_iff hm 0).mpr hd
  obtain ⟨p, hp, hpk, -⟩ := exists_mem_of_place ht
  have hp' : p.kind = .finish := hpk.trans hk
  rcases nextRun_cases settings c.isBulk c.previous c.rest hm
    with ⟨d, h'⟩ | ⟨q, h', -⟩ | ⟨u, a, -, -, h'⟩ | ⟨within, d, ds, he, hw, -, h'⟩ <;>
    rw [hr] at h' <;> subst h'
  · cases hp
  · obtain rfl := List.mem_singleton.mp hp
    cases h with
    | cons hcut _ =>
      obtain ⟨htext, -⟩ := hcut.lexeme.of_finish hp'
      exact congrArg (fun q => [q]) (congrArg₂ Piece.mk hp' htext)
  · simp only [Run.cut, List.mem_cons, List.not_mem_nil, or_false] at hp
    rcases hp with rfl | rfl <;> cases hp'
  · exact absurd hp' (kind_of_mem_pathRun hw (he ▸ List.cons_ne_nil d ds) hp)

theorem Cut.eq_of_finish (h : Cut settings c ⟨.finish, []⟩ c') : c' = { c with mode := .done } :=
  Cursor.ext (Mode.eq_done_of_finish h.next?) (h.isBulk.trans (Bool.or_false _)) h.previous
    h.rest.symm

theorem Cuts.text_ne_nil {ps : List Piece} (h : Cuts settings c ps c') (hd : c'.mode ≠ .done) :
    ∀ p ∈ ps, p.text ≠ [] := by
  induction h with
  | nil => exact fun _ hp => absurd hp List.not_mem_nil
  | @cons c p c₁ ps c' hcut t ih =>
    refine List.forall_mem_cons.mpr ⟨hcut.lexeme.text_ne_nil fun hk => ?_, ih hd⟩
    have hdone : c₁.mode = .done := Mode.eq_done_of_finish (hk ▸ hcut.next?)
    cases t with
    | nil => exact hd hdone
    | cons hcut' => exact stuck_of_done hdone _ _ hcut'

theorem Cuts.byteLength_pos {ps : List Piece} (h : Cuts settings c ps c') (hd : c'.mode ≠ .done)
    (hne : ps ≠ []) : 0 < byteLength (textOf ps) := by
  obtain ⟨p, ps, rfl⟩ := List.exists_cons_of_ne_nil hne
  have hlength := length_le_byteLength p.text
  have hpos := List.length_pos_iff.mpr (h.text_ne_nil hd p List.mem_cons_self)
  rw [textOf_cons, byteLength_append]
  omega

end Run

section Calls

variable {settings : Settings} {name : Text} {handed : List Token} {s : Scan} {n : Nat}

/-- **The next call progresses**, and the table of modes refuses nothing that it cuts. -/
theorem Stands.progress (h : Stands settings name handed s) (hq : s.queue = [])
    (hm : s.mode ≠ .done) : s.Progress ∧ s.upcoming.2 = none := by
  obtain ⟨ps, c, q, -, hc, -, rfl⟩ := h
  obtain rfl : q = [] := hq
  have hm : c.mode ≠ .done := hm
  generalize byteLength (textOf ps) = n
  obtain ⟨c', hcuts, hok, -⟩ := isRow_nextRun settings hc hm
  generalize hrun : nextRun settings c.mode c.isBulk c.previous c.rest = run at hcuts hok
  obtain ⟨hstep, -⟩ := step_scan_of_cuts (n := n) (q := []) hrun hcuts
  constructor
  · cases hf : run.fault with
    | some e =>
      have hfault : (c.scan settings n []).step.2 =
          some (e.shift (n + byteLength (textOf run.pieces))) := by rw [hstep, hf]; rfl
      exact .fails (congrArg Prod.fst (next_scan_of_fault hm hfault))
    | none =>
      have hnone : (c.scan settings n []).step.2 = none := by rw [hstep, hf]; rfl
      have hnext := next_scan_of_step hm hnone
      rw [hstep] at hnext
      by_cases hd : c'.mode = .done
      · have hfinish := hcuts.pieces_eq_finish hrun hm hd
        rw [hfinish] at hcuts hnext
        cases hcuts with
        | cons hcut hnil =>
          cases hnil
          rw [hcut.eq_of_finish] at hnext
          exact .ends hnext
      · have htext : ∀ u ∈ place n run.pieces, u.text ≠ [] := fun u hu => by
          obtain ⟨p, hp, -, ht⟩ := exists_mem_of_place hu
          rw [← ht]
          exact hcuts.text_ne_nil hd p hp
        have hpos := hcuts.byteLength_pos hd (hok hf).1
        obtain ⟨t, q, hplace⟩ := exists_place_eq_cons (n := n) (hok hf).1
        rw [hplace] at hnext htext
        exact .advances hnext htext (Nat.lt_add_of_pos_right hpos)
  · have hnone : (moves c.mode n run.pieces).2 = none := (moves_eq_place hcuts n).2
    rw [← hrun] at hnone
    exact hnone

/-- **Nothing is handed out** only where the scan is over. -/
theorem Stands.isOver_of_next (h : Stands settings name handed s) (hn : s.next.1 = .ok none) :
    s.IsOver := by
  by_cases hs : s.queue = [] ∧ s.mode ≠ .done
  · cases (h.progress hs.1 hs.2).1 with
    | fails h' | ends h' | advances h' => rw [h'] at hn; cases hn
  · rw [Scan.next, if_neg hs, Scan.pop] at hn
    split at hn
    · next hq => exact ⟨hq, not_not.mp fun hm => hs ⟨hq, hm⟩⟩
    · cases hn

theorem Stands.exists_finish (h : Stands settings name handed s) (hn : s.next.1 = .ok none) :
    ∃ t ∈ handed, t.kind = .finish := by
  obtain ⟨hq, hm⟩ := h.isOver_of_next hn
  have hfinish := h.accounts.finish.mpr hm
  rwa [hq, List.append_nil] at hfinish

/-! ## Many calls -/

namespace Scan

theorem length_calls (n : Nat) (s : Scan) : (s.calls n).1.length = n := by
  induction n generalizing s with
  | zero => rfl
  | succ n ih => rw [calls, List.length_cons, ih]

theorem handedOut_cons_ok (t : Option Token) (results : List (Except Diagnostic (Option Token))) :
    handedOut (.ok t :: results) = t.toList ++ handedOut results := by cases t <;> rfl

theorem handedOut_replicate_none (n : Nat) : handedOut (List.replicate n (.ok none)) = [] := by
  induction n with
  | zero => rfl
  | succ n ih => rw [List.replicate_succ, handedOut_cons_ok, ih]; rfl

theorem length_handedOut {results : List (Except Diagnostic (Option Token))}
    (h : ∀ r ∈ results, ∃ t, r = .ok (some t)) : (handedOut results).length = results.length := by
  induction results with
  | nil => rfl
  | cons r results ih =>
    obtain ⟨⟨t, rfl⟩, hrest⟩ := List.forall_mem_cons.mp h
    rw [handedOut_cons_ok, List.length_append, ih hrest, List.length_cons, Nat.add_comm]
    rfl

end Scan

theorem Stands.length_le (h : Stands settings name handed s) :
    handed.length ≤ byteLength name + 1 := by
  obtain ⟨ps, c, q, hcuts, -, hq, -⟩ := h
  have hlength := congrArg List.length hq
  have hle : ps.length + byteLength c.rest ≤ byteLength name + _ := hcuts.length_le
  rw [List.length_append, length_place] at hlength
  split at hle <;> omega

/-- **A token for each byte** of the name and one for its end are the most that is handed out. -/
theorem Stands.length_handedOut_le (h : Stands settings name handed s) (n : Nat) :
    (handed ++ Scan.handedOut (s.calls n).1).length ≤ byteLength name + 1 := by
  induction n generalizing handed s with
  | zero => simpa [Scan.calls, Scan.handedOut] using h.length_le
  | succ n ih =>
    rw [Scan.calls]
    rcases h.next with ⟨t, ht, hnext⟩ | ⟨⟨d, hd⟩, hover⟩
    · rw [ht, Scan.handedOut_cons_ok, ← List.append_assoc]
      exact ih hnext
    · have hrest : Scan.handedOut (.error d :: (s.next.2.calls n).1) = [] := by
        rw [hover.calls]
        exact Scan.handedOut_replicate_none n
      rw [hd, hrest, List.append_nil]
      exact h.length_le

/-- Before a call hands out nothing, one has failed, or the end of the name has been handed out. -/
theorem Stands.exists_before (h : Stands settings name handed s)
    (before after : List (Except Diagnostic (Option Token)))
    (hn : (s.calls n).1 = before ++ .ok none :: after) :
    (∃ t ∈ handed, t.kind = .finish) ∨ (∃ d, .error d ∈ before) ∨
      ∃ t, .ok (some t) ∈ before ∧ t.kind = .finish := by
  induction n generalizing handed s before with
  | zero => simp [Scan.calls] at hn
  | succ n ih =>
    rw [Scan.calls] at hn
    cases before with
    | nil => exact .inl (h.exists_finish (List.cons.inj hn).1)
    | cons r before =>
      obtain ⟨hr, hrest⟩ := List.cons.inj hn
      rcases h.next with ⟨t, ht, hnext⟩ | ⟨⟨d, hd⟩, -⟩
      · obtain rfl : .ok t = r := ht.symm.trans hr
        rcases ih hnext before hrest with ⟨u, hu, hk⟩ | ⟨d, hd⟩ | ⟨u, hu, hk⟩
        · rcases List.mem_append.mp hu with hu | hu
          · exact .inl ⟨u, hu, hk⟩
          · obtain rfl := Option.mem_toList.mp hu
            exact .inr (.inr ⟨u, List.mem_cons_self, hk⟩)
        · exact .inr (.inl ⟨d, List.mem_cons_of_mem _ hd⟩)
        · exact .inr (.inr ⟨u, List.mem_cons_of_mem _ hu, hk⟩)
      · obtain rfl : .error d = r := hd.symm.trans hr
        exact .inr (.inl ⟨d, List.mem_cons_self⟩)

end Calls

/-! ## Loops -/

/-- What a loop makes of a transcript. -/
def Transcript.feed {α : Type} (tr : Transcript) (add : α → Token → Except Diagnostic α) (a : α) :
    Except Diagnostic α :=
  match tr.tokens.foldlM add a with
  | .error d => .error d
  | .ok b =>
    match tr.fault with
    | some d => .error d
    | none => .ok b

section Loops

variable {settings : Settings} {name : Text} {α : Type}

theorem exists_loop_of_calls (add : α → Token → Except Diagnostic α) (fuel : Nat) (s : Scan) (a : α)
    (h : ∃ r ∈ (s.calls fuel).1, ∀ t, r ≠ .ok (some t)) :
    ∃ n ≤ fuel, Scan.Loop add n s a ((Scan.transcriptFor fuel s).feed add a) := by
  induction fuel generalizing s a with
  | zero => simp [Scan.calls] at h
  | succ fuel ih =>
    obtain ⟨r, hr, hne⟩ := h
    rw [Scan.transcriptFor]
    split
    · next d s' hn => exact ⟨1, by omega, .fails (congrArg Prod.fst hn)⟩
    · next s' hn => exact ⟨1, by omega, .over (congrArg Prod.fst hn)⟩
    · next t s' hn =>
      have hr : r ∈ (s'.calls fuel).1 := by
        rw [Scan.calls, hn] at hr
        exact (List.mem_cons.mp hr).resolve_left (hne t)
      cases hb : add a t with
      | error d =>
        refine ⟨1, by omega, ?_⟩
        have hfeed : Transcript.feed { Scan.transcriptFor fuel s' with
            tokens := t :: (Scan.transcriptFor fuel s').tokens } add a = .error d := by
          simp only [Transcript.feed, List.foldlM_cons, hb]
          rfl
        rw [hfeed]
        exact .refuses (congrArg Prod.fst hn) hb
      | ok b =>
        obtain ⟨n, hle, hloop⟩ := ih s' b ⟨r, hr, hne⟩
        have hfeed : Transcript.feed { Scan.transcriptFor fuel s' with
            tokens := t :: (Scan.transcriptFor fuel s').tokens } add a =
              (Scan.transcriptFor fuel s').feed add b := by
          simp only [Transcript.feed, List.foldlM_cons, hb]
          rfl
        rw [hfeed]
        refine ⟨n + 1, by omega, .takes (congrArg Prod.fst hn) hb ?_⟩
        rw [hn]
        exact hloop

/-- **Every loop over a name comes to an end**: one call for each byte, one for the end of the name
and one more are enough. -/
theorem exists_loop (add : α → Token → Except Diagnostic α) (settings : Settings) (name : Text)
    (a : α) : ∃ n ≤ byteLength name + 2, Scan.Loop add n (.ofName settings name) a
      ((Scan.transcript settings name).feed add a) := by
  refine exists_loop_of_calls add _ _ a ?_
  by_contra hall
  have hle := (stands_ofName settings name).length_handedOut_le (Scan.callLimit name)
  rw [List.nil_append, Scan.length_handedOut, Scan.length_calls, Scan.callLimit] at hle
  · omega
  · intro r hr
    by_contra hr'
    exact hall ⟨r, hr, fun t ht => hr' ⟨t, ht⟩⟩

theorem foldlM_collect (ts us : List Token) :
    us.foldlM Scan.collect ts = .ok (ts ++ us) := by
  induction us generalizing ts with
  | nil => rw [List.append_nil]; rfl
  | cons u us ih =>
    have hstep : (u :: us).foldlM Scan.collect ts = us.foldlM Scan.collect (ts ++ [u]) := rfl
    rw [hstep, ih, List.append_assoc]
    rfl

theorem feed_collect_transcript (settings : Settings) (name : Text) :
    (Scan.transcript settings name).feed Scan.collect [] = tokenize settings name := by
  rw [Transcript.feed, foldlM_collect, tokenize]
  rfl

theorem parse_eq_bind_feed (settings : Settings) (name : Text) :
    parse settings name = ((Scan.transcript settings name).feed Draft.add {}).bind
      (Draft.finish · (byteLength name)) := by
  unfold parse Transcript.feed
  obtain ⟨ts, fault⟩ := Scan.transcript settings name
  dsimp only
  cases ts.foldlM Draft.add {} with
  | error d => rfl
  | ok d => cases fault <;> rfl

theorem Mode.exists_pathMode? {m : Mode} (h : m.accepts .property = true) :
    ∃ within, m.pathMode? = some within := by
  revert h
  cases m <;> first | exact fun _ => ⟨_, rfl⟩ | exact nofun

variable {n : Nat} {s : Scan} {results : List (Except Diagnostic (Option Token))}

/-- **Scans progress, and never end in silence.** After any number of calls: if nothing is queued
and the scan is not over, the next call fails, cuts the end of the name, or cuts tokens that take
some of the name; the table of modes refuses none of them, and a path is begun only where it leads
on. A call that hands out nothing comes after the end of the name or after a diagnostic. There are
no more tokens than bytes, the end of the name apart; and two calls more than there are bytes are
enough for the tokens of a name and for its query. -/
theorem progress_calls (h : (Scan.ofName settings name).calls n = (results, s)) :
    (s.queue = [] → s.mode ≠ .done → s.Progress ∧ s.upcoming.2 = none ∧
        (s.mode.accepts .property = true → ∃ within, s.mode.pathMode? = some within)) ∧
      (∀ before after, results = before ++ .ok none :: after →
        (∃ d, .error d ∈ before) ∨ ∃ t, .ok (some t) ∈ before ∧ t.kind = .finish) ∧
      (Scan.handedOut results).length ≤ byteLength name + 1 ∧
      (∃ k ≤ byteLength name + 2,
        Scan.Loop Scan.collect k (.ofName settings name) [] (tokenize settings name)) ∧
      ∃ k ≤ byteLength name + 2, ∃ r, Scan.Loop Draft.add k (.ofName settings name) {} r ∧
        parse settings name = r.bind (Draft.finish · (byteLength name)) := by
  have hstart := stands_ofName settings name
  obtain ⟨hok, herr⟩ := hstart.calls n
  have hbefore := hstart.exists_before (n := n)
  have hlength := hstart.length_handedOut_le n
  rw [h] at hok herr hbefore hlength
  refine ⟨fun hq hm => ?_, fun before after hn => ?_, hlength, ?_, ?_⟩
  · by_cases hall : ∀ r ∈ results, ∃ t, r = .ok t
    · obtain ⟨hprogress, hnone⟩ := (hok hall).progress hq hm
      exact ⟨hprogress, hnone, Mode.exists_pathMode?⟩
    · -- a call has failed, and the scan is over
      push Not at hall
      obtain ⟨r, hr, hne⟩ := hall
      cases r with
      | ok t => exact absurd rfl (hne t)
      | error d => exact absurd (herr ⟨_, hr, d, rfl⟩).mode hm
  · exact (hbefore before after hn).resolve_left fun ⟨t, ht, _⟩ => absurd ht List.not_mem_nil
  · rw [← feed_collect_transcript]
    exact exists_loop Scan.collect settings name []
  · obtain ⟨k, hk, hloop⟩ := exists_loop Draft.add settings name {}
    exact ⟨k, hk, _, hloop, parse_eq_bind_feed settings name⟩

theorem progress_findByHome_zip :
    (∃ results s, (Scan.ofName {} "findByHome_zip".toList).calls 2 = (results, s) ∧
      s.queue = [] ∧ s.mode = .criterionStart ∧ s.Progress ∧ s.upcoming.2 = none) ∧
    ∃ before s, (Scan.ofName {} "findByHome_zip".toList).calls 7 = (before ++ [.ok none], s) ∧
      ((∃ d, .error d ∈ before) ∨ ∃ t, .ok (some t) ∈ before ∧ t.kind = .finish) ∧
      (Scan.handedOut (before ++ [.ok none])).length ≤ 15 := by
  have h : (Scan.ofName {} "findByHome_zip".toList).calls 2 =
      ([.ok (some ⟨.action .find, "find".toList, 0⟩), .ok (some ⟨.criteria, "By".toList, 4⟩)],
        { settings := {}, mode := .criterionStart, position := 6, previous := some 'y',
          rest := "Home_zip".toList, queue := [], isBulk := false }) := by
    decide +kernel
  have h' : (Scan.ofName {} "findByHome_zip".toList).calls 7 =
      ([.ok (some ⟨.action .find, "find".toList, 0⟩), .ok (some ⟨.criteria, "By".toList, 4⟩),
          .ok (some ⟨.pathStart, "Home".toList, 6⟩), .ok (some ⟨.separator, ['_'], 10⟩),
          .ok (some ⟨.pathPart, "zip".toList, 11⟩), .ok (some ⟨.finish, [], 14⟩)] ++ [.ok none],
        { settings := {}, mode := .done, position := 14, previous := some 'p', rest := [],
          queue := [], isBulk := false }) := by
    decide +kernel
  obtain ⟨hprogress, hnone, -⟩ := (progress_calls h).1 rfl nofun
  obtain ⟨-, hbefore, hlength, -⟩ := progress_calls h'
  exact ⟨⟨_, _, h, rfl, rfl, hprogress, hnone⟩, _, _, h', hbefore _ _ rfl, hlength⟩

end Loops

end DerivedQuery
