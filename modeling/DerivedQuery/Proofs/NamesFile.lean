import DerivedQuery.Cli.Program
import DerivedQuery.Proofs.JsonText

/-!
# Names in a file

Names that are to be checked may stand in a file, one a line. The program does with them what it
does with names that are given as arguments.

* `Listable`: names that a file can hold;
* `Holds`, `LaidOut`: what a line holds, and a whole text;
* `laidOut_iff`: the names read from a text are those it holds;
* `World.namesToCheck_of_laidOut`: the names of both sources are one list;
* `World.exit_check_iff`, `World.stdout_check`: what the exit code and the report tell of a list,
  and that the report can be told from the text which is written;
* **`invoke_check_of_laidOut`**: the same is written for either source, and what that is.
-/

namespace DerivedQuery

/-! ## Trimming -/

section Trimming

variable {s t : Text} {c : Char}

theorem trim_pad_append (hs : ∀ c ∈ s, isWhite c = true) : trim (s ++ t) = trim t := by
  rw [trim, trim, List.dropWhile_append_of_pos hs]

theorem trimEnd_append_pad (hs : ∀ c ∈ s, isWhite c = true) : trimEnd (t ++ s) = trimEnd t := by
  have hr : ∀ c ∈ s.reverse, isWhite c = true := fun c hc => hs c (List.mem_reverse.mp hc)
  rw [trimEnd, trimEnd, List.reverse_append, List.dropWhile_append_of_pos hr]

theorem trim_append_pad (hs : ∀ c ∈ s, isWhite c = true) : trim (t ++ s) = trim t := by
  rw [trim, trim, List.dropWhile_append]
  split
  · next hempty => rw [List.isEmpty_iff.mp hempty, List.dropWhile_eq_nil_iff.mpr hs]
  · exact trimEnd_append_pad hs

theorem trim_eq_nil (hs : ∀ c ∈ s, isWhite c = true) : trim s = [] := by
  rw [← List.append_nil s, trim_pad_append hs]
  rfl

/-- A text is what is left of it with white space around. -/
theorem exists_eq_append_trim_append (t : Text) : ∃ s s', (∀ c ∈ s, isWhite c = true) ∧
    (∀ c ∈ s', isWhite c = true) ∧ t = s ++ trim t ++ s' := by
  refine ⟨t.takeWhile isWhite, (t.dropWhile isWhite).rtakeWhile isWhite,
    fun _ hc => List.mem_takeWhile_imp hc, fun _ hc => List.mem_rtakeWhile_imp hc, ?_⟩
  have hend : trim t ++ (t.dropWhile isWhite).rtakeWhile isWhite = t.dropWhile isWhite :=
    List.rdropWhile_append_rtakeWhile
  rw [List.append_assoc, hend, List.takeWhile_append_dropWhile]

theorem trim_trim (t : Text) : trim (trim t) = trim t := by
  obtain ⟨s, s', hs, hs', heq⟩ := exists_eq_append_trim_append t
  conv_rhs => rw [heq, trim_append_pad hs', trim_pad_append hs]

theorem trim_cons (hc : isWhite c = false) : trim (c :: t) = c :: trimEnd t := by
  have hdrop : (c :: t).dropWhile isWhite = c :: t := by simp [hc]
  rw [trim, hdrop, trimEnd, trimEnd, List.reverse_cons, List.dropWhile_append]
  split
  · next hempty =>
    rw [List.isEmpty_iff.mp hempty]
    simp [hc]
  · simp

end Trimming

/-! ## Files -/

theorem Entry.read_file_toUTF8 (t : String) : (Entry.file t.toUTF8).read = .ok t.toList := by
  have hdecode : String.fromUTF8? t.toUTF8 = some t := by
    rw [String.fromUTF8?, String.toUTF8_eq_toByteArray, dif_pos t.isValidUTF8]
    rfl
  have hproblem : (Entry.file t.toUTF8).problem? = none := by
    rw [Entry.problem?, hdecode, Option.isSome_some, if_pos rfl]
  simp only [Entry.read, hproblem, hdecode, Option.getD_some]

/-! ## Keys -/

section Keys

variable {β γ : Type} {fs gs : List (String × β)}

/-- Where no key is twice, the order of the keys does not matter. -/
theorem lookup_eq_of_perm (h : fs.Perm gs) (hn : (fs.map Prod.fst).Nodup) (key : String) :
    fs.lookup key = gs.lookup key := by
  induction h with
  | nil => rfl
  | cons f _ ih => rw [List.lookup_cons, List.lookup_cons, ih (List.nodup_cons.mp hn).2]
  | swap f g fs =>
    have hne : g.1 ≠ f.1 := fun he => (List.nodup_cons.mp hn).1 (he ▸ List.mem_cons_self)
    rw [List.lookup_cons, List.lookup_cons, List.lookup_cons, List.lookup_cons]
    by_cases hg : key = g.1
    · have hf : (key == f.1) = false := beq_false_of_ne (hg ▸ hne)
      rw [hf]
    · rw [beq_false_of_ne hg]
  | trans h _ ih ih' => exact (ih hn).trans (ih' ((h.map Prod.fst).nodup_iff.mp hn))

theorem lookup_map_snd (g : β → γ) (key : String) :
    (fs.map fun f => (f.1, g f.2)).lookup key = (fs.lookup key).map g := by
  induction fs with
  | nil => rfl
  | cons f fs ih =>
    rw [List.map_cons, List.lookup_cons, List.lookup_cons, ih]
    cases key == f.1 <;> rfl

end Keys

namespace Json

variable {fields : List (String × Json)}

/-- The value under a key of an object. -/
def field? (key : String) : Json → Option Json
  | .object fields => fields.lookup key
  | _ => none

theorem sortItems_eq_map (js : List Json) : sortItems js = js.map sortKeys := by
  induction js with
  | nil => rfl
  | cons j js ih => rw [sortItems, ih, List.map_cons]

theorem sortFields_eq_map (fields : List (String × Json)) :
    sortFields fields = fields.map fun f => (f.1, f.2.sortKeys) := by
  induction fields with
  | nil => rfl
  | cons f fields ih => rw [sortFields, ih, List.map_cons]

theorem field?_sortKeys (hn : (fields.map Prod.fst).Nodup) (key : String) :
    (Json.object fields).sortKeys.field? key = ((Json.object fields).field? key).map sortKeys := by
  have hkeys : ((sortFields fields).map Prod.fst).Nodup := by
    simpa [sortFields_eq_map, Function.comp_def] using hn
  rw [sortKeys, field?, field?, ← lookup_eq_of_perm (List.mergeSort_perm _ _).symm hkeys,
    sortFields_eq_map, lookup_map_snd]

end Json

namespace Cli

/-! ## Layout -/

/-- A file can hold the name: it is not taken for a comment, and nothing of it is lost with the
white space around it. -/
structure Listable (n : Text) : Prop where
  trim_eq : trim n = n
  ne_nil : n ≠ []
  head?_ne : n.head? ≠ some '#'
  not_mem : '\n' ∉ n

/-- White space within a line. -/
def IsPad (s : Text) : Prop := ∀ c ∈ s, isWhite c = true ∧ c ≠ '\n'

/-- What a line holds, without its end: a name with white space around it, or nothing. -/
inductive Holds : List Text → Text → Prop where
  | name {n s s' : Text} (hn : Listable n) (hs : IsPad s) (hs' : IsPad s') :
      Holds [n] (s ++ n ++ s')
  | blank {s : Text} (hs : IsPad s) : Holds [] s
  | comment {s t : Text} (hs : IsPad s) (ht : '\n' ∉ t) : Holds [] (s ++ '#' :: t)

/-- What a text holds, line by line. Lines end with a line feed, which a carriage return may stand
before; the last one may go without. -/
inductive LaidOut : List Text → Text → Prop where
  | last {ns : List Text} {l : Text} (h : Holds ns l) : LaidOut ns l
  | line {ns ms : List Text} {l e t : Text} (h : Holds ns l) (he : e = ['\n'] ∨ e = ['\r', '\n'])
      (ht : LaidOut ms t) : LaidOut (ns ++ ms) (l ++ e ++ t)

section Layout

variable {l s s' t : Text} {ns : List Text}

theorem listedNames_of_not_mem (h : '\n' ∉ l) :
    listedNames l = if trim l ≠ [] ∧ (trim l).head? ≠ some '#' then [trim l] else [] := by
  rw [listedNames, splitLines_of_not_mem h]
  simp [List.filter_cons]

theorem listedNames_append (h : '\n' ∉ l) (t : Text) :
    listedNames (l ++ '\n' :: t) = listedNames l ++ listedNames t := by
  simp only [listedNames, splitLines_append h, splitLines_of_not_mem h]
  rw [← List.singleton_append, List.map_append, List.filter_append]

theorem IsPad.isWhite (h : IsPad s) : ∀ c ∈ s, isWhite c = true := fun c hc => (h c hc).1

theorem IsPad.not_mem (h : IsPad s) : '\n' ∉ s := fun hc => (h _ hc).2 rfl

theorem IsPad.append (h : IsPad s) (h' : IsPad s') : IsPad (s ++ s') := fun c hc =>
  (List.mem_append.mp hc).elim (h c) (h' c)

theorem isPad_return : IsPad ['\r'] := fun c hc => by
  rw [List.mem_singleton.mp hc]
  decide

theorem Holds.not_mem (h : Holds ns l) : '\n' ∉ l := by
  cases h with
  | name hn hs hs' =>
    simp only [List.mem_append, not_or]
    exact ⟨⟨hs.not_mem, hn.not_mem⟩, hs'.not_mem⟩
  | blank hs => exact hs.not_mem
  | comment hs ht =>
    simp only [List.mem_append, List.mem_cons, not_or]
    exact ⟨hs.not_mem, by decide, ht⟩

theorem Holds.append_return (h : Holds ns l) : Holds ns (l ++ ['\r']) := by
  cases h with
  | name hn hs hs' =>
    rw [List.append_assoc]
    exact .name hn hs (hs'.append isPad_return)
  | blank hs => exact .blank (hs.append isPad_return)
  | comment hs ht =>
    rw [List.append_assoc, List.cons_append]
    refine .comment hs fun hc => ?_
    exact (List.mem_append.mp hc).elim ht isPad_return.not_mem

/-- **A line is read as what it holds.** -/
theorem Holds.listedNames_eq (h : Holds ns l) : listedNames l = ns := by
  rw [listedNames_of_not_mem h.not_mem]
  cases h with
  | name hn hs hs' =>
    rw [trim_append_pad hs'.isWhite, trim_pad_append hs.isWhite, hn.trim_eq,
      if_pos ⟨hn.ne_nil, hn.head?_ne⟩]
  | blank hs => rw [trim_eq_nil hs.isWhite, if_neg fun h => h.1 rfl]
  | comment hs ht =>
    rw [trim_pad_append hs.isWhite, trim_cons (by decide), if_neg fun h => h.2 rfl]

theorem holds_listedNames (h : '\n' ∉ l) : Holds (listedNames l) l := by
  obtain ⟨s, s', hs, hs', heq⟩ := exists_eq_append_trim_append l
  obtain ⟨⟨hmem, htrim⟩, hmem'⟩ : ('\n' ∉ s ∧ '\n' ∉ trim l) ∧ '\n' ∉ s' := by
    rw [heq] at h
    simpa only [List.mem_append, not_or] using h
  have hpad : IsPad s := fun c hc => ⟨hs c hc, fun he => hmem (he ▸ hc)⟩
  have hpad' : IsPad s' := fun c hc => ⟨hs' c hc, fun he => hmem' (he ▸ hc)⟩
  rw [listedNames_of_not_mem h]
  split
  · next hname =>
    have hholds := Holds.name ⟨trim_trim l, hname.1, hname.2, htrim⟩ hpad hpad'
    rwa [← heq] at hholds
  · next hname =>
    cases hl : trim l with
    | nil =>
      rw [heq, hl, List.append_nil]
      exact .blank (hpad.append hpad')
    | cons c t =>
      rw [hl] at htrim hname
      obtain rfl : c = '#' := by
        by_contra hc
        exact hname ⟨List.cons_ne_nil c t, mt Option.some.inj hc⟩
      rw [heq, hl, List.append_assoc, List.cons_append]
      refine .comment hpad fun hc => ?_
      exact (List.mem_append.mp hc).elim (fun hc => htrim (List.mem_cons_of_mem _ hc)) hmem'

theorem LaidOut.listedNames_eq (h : LaidOut ns t) : listedNames t = ns := by
  induction h with
  | last h => exact h.listedNames_eq
  | line h he _ ih =>
    rcases he with rfl | rfl
    · rw [List.append_assoc, List.singleton_append, listedNames_append h.not_mem,
        h.listedNames_eq, ih]
    · -- the carriage return is white space at the end of the line
      rw [List.append_assoc, List.cons_append, List.singleton_append, List.append_cons,
        listedNames_append h.append_return.not_mem, h.append_return.listedNames_eq, ih]

theorem laidOut_listedNames (t : Text) : LaidOut (listedNames t) t := by
  by_cases h : '\n' ∈ t
  · obtain ⟨l, u, rfl, hl⟩ := List.eq_append_cons_of_mem h
    rw [listedNames_append hl, List.append_cons]
    exact .line (holds_listedNames hl) (.inl rfl) (laidOut_listedNames u)
  · exact .last (holds_listedNames h)
termination_by t.length

/-- **The names read from a text** are those it holds. -/
theorem laidOut_iff : LaidOut ns t ↔ listedNames t = ns :=
  ⟨LaidOut.listedNames_eq, fun h => h ▸ laidOut_listedNames t⟩

end Layout

/-! ## Both sources -/

/-- Where names are read from; a dash stands for standard input. -/
def World.source (w : World) (file : String) : Entry :=
  if file = "-" then .file w.stdin else w.entry file

section Sources

variable {w : World} {options : Options} {a b names : List String} {file t : String}
  {settings : Settings} {format : Format} {c c' : Command}

theorem World.names_of_laidOut {ns : List Text} (hfile : w.source file = .file t.toUTF8)
    (h : LaidOut ns t.toList) : w.names file = .ok ns := by
  rw [World.source] at hfile
  rw [World.names]
  split_ifs at hfile ⊢ with hdash
  all_goals simp only [hfile, Entry.read_file_toUTF8, h.listedNames_eq]

theorem World.namesToCheck_none : w.namesToCheck names none =
    if names = [] then .error "No method names given. Pass names or --file."
    else .ok (names.map String.toList) := by
  simp [World.namesToCheck]

/-- **The names of both sources** are one list. -/
theorem World.namesToCheck_of_laidOut (hfile : w.source file = .file t.toUTF8)
    (h : LaidOut (b.map String.toList) t.toList) :
    w.namesToCheck a (some file) = w.namesToCheck (a ++ b) none := by
  rw [World.namesToCheck, Option.map_some, World.names_of_laidOut hfile h]
  simp [World.namesToCheck]

/-- Commands that come to the same are carried out in the same way. -/
theorem World.invoke_congr
    (h : ∀ settings format, w.perform settings format c = w.perform settings format c') :
    w.invoke ⟨options, c⟩ = w.invoke ⟨options, c'⟩ := by
  simp only [World.invoke, h]

end Sources

/-! ## Verdicts -/

/-- There are names, and each of them is accepted. -/
def Accepts (settings : Settings) (names : List String) : Prop :=
  names ≠ [] ∧ ∀ n ∈ names, (parse settings n.toList).isOk = true

instance (settings : Settings) (names : List String) : Decidable (Accepts settings names) := by
  unfold Accepts
  infer_instance

/-- An entry of the report names the name, and tells whether it is accepted. -/
structure ReportsOn (settings : Settings) (n : String) (entry : Json) : Prop where
  name : entry.field? "name" = some (.string n)
  ok : entry.field? "ok" = some (.bool (parse settings n.toList).isOk)

section Verdicts

variable {w : World} {options : Options} {names : List String} {settings : Settings}
  {events : List Log.Event}

theorem verdictJson_eq (v : Verdict) : ∃ key j, (key = "query" ∨ key = "error") ∧
    verdictJson v =
      .object [("name", .text v.name), ("ok", .bool v.isAccepted), (key, j)] := by
  obtain ⟨n, outcome⟩ := v
  cases outcome with
  | ok q => exact ⟨_, q.toJson, .inl rfl, rfl⟩
  | error d => exact ⟨_, d.toJson, .inr rfl, rfl⟩

theorem reportsOn_sortKeys (settings : Settings) (n : String) :
    ReportsOn settings n (verdictJson ⟨n.toList, parse settings n.toList⟩).sortKeys := by
  obtain ⟨key, j, hkey, heq⟩ := verdictJson_eq ⟨n.toList, parse settings n.toList⟩
  have hn : ["name", "ok", key].Nodup := by rcases hkey with rfl | rfl <;> decide
  rw [heq]
  constructor
  · rw [Json.field?_sortKeys (by exact hn), Json.text, String.ofList_toList]
    rfl
  · rw [Json.field?_sortKeys (by exact hn)]
    rfl

theorem filterMap_out_events (es : List Log.Event) :
    (es.map Line.event).filterMap Line.out? = [] := by
  induction es with
  | nil => rfl
  | cons e es ih => exact ih

theorem World.invoke_check (hs : w.settings options = .ok (settings, events)) (hne : names ≠ []) :
    w.invoke ⟨options, .check names none⟩ =
      let o := check w.screen settings (options.format.getD .table) (names.map String.toList)
      conclude (w.filter options) (events.map Line.event ++ o.lines)
        (if o.isAccepted then 0 else 1) := by
  simp only [World.invoke, hs, World.perform, World.namesToCheck_none, if_neg hne]
  rfl

theorem World.exit_check_nil (hs : w.settings options = .ok (settings, events)) :
    (w.invoke ⟨options, .check [] none⟩).exit = 1 := by
  simp only [World.invoke, hs, World.perform, World.namesToCheck_none, if_pos]
  rfl

theorem isAccepted_check (screen : Screen) (format : Format) :
    (check screen settings format (names.map String.toList)).isAccepted = true ↔
      ∀ n ∈ names, (parse settings n.toList).isOk = true := by
  simp [check, Verdict.isAccepted]

/-- **The exit code** tells whether there are names and each of them is accepted. -/
theorem World.exit_check_iff (hs : w.settings options = .ok (settings, events)) :
    (w.invoke ⟨options, .check names none⟩).exit = 0 ↔ Accepts settings names := by
  by_cases hne : names = []
  · subst hne
    rw [World.exit_check_nil hs]
    exact iff_of_false (by decide) fun h => h.1 rfl
  · rw [World.invoke_check hs hne, Accepts, and_iff_right hne,
      ← isAccepted_check w.screen (options.format.getD .table)]
    dsimp only [conclude]
    split
    · next haccepted => exact iff_of_true rfl haccepted
    · next haccepted => exact iff_of_false (by decide) haccepted

theorem filterMap_out_check (screen : Screen) (ns : List Text) :
    (check screen settings .json ns).lines.filterMap Line.out? =
      [(verdictsJson (ns.map fun n => ⟨n, parse settings n⟩)).pretty] := by
  dsimp only [check]
  rw [List.filterMap_append, ← List.map_flatMap, filterMap_out_events, List.nil_append]
  rfl

theorem joinLines_pretty_injective {j j' : Json}
    (h : joinLines [j.pretty] = joinLines [j'.pretty]) : j = j' := by
  have h' : "" ++ j.pretty ++ "\n" = "" ++ j'.pretty ++ "\n" := h
  rw [String.append_left_inj, String.append_right_inj] at h'
  exact Json.pretty_injective h'

/-- **The report** has an entry for every name, in their order, and nothing else is written so. -/
theorem World.stdout_check (hs : w.settings options = .ok (settings, events)) (hne : names ≠ [])
    (hf : options.format = some .json) :
    ∃ entries, List.Forall₂ (ReportsOn settings) names entries ∧
      (w.invoke ⟨options, .check names none⟩).stdout = joinLines [(Json.array entries).pretty] ∧
      ∀ j : Json, (w.invoke ⟨options, .check names none⟩).stdout = joinLines [j.pretty] →
        j = .array entries := by
  have hout : (w.invoke ⟨options, .check names none⟩).stdout = joinLines [(Json.array
      (names.map fun n => (verdictJson ⟨n.toList, parse settings n.toList⟩).sortKeys)).pretty] := by
    rw [World.invoke_check hs hne, hf]
    dsimp only [conclude, Option.getD_some]
    rw [List.filterMap_append, filterMap_out_events, List.nil_append, filterMap_out_check,
      verdictsJson, Json.sortKeys, Json.sortItems_eq_map, List.map_map, List.map_map, List.map_map]
    rfl
  refine ⟨_, ?_, hout, fun j hj => joinLines_pretty_injective (hj.symm.trans hout)⟩
  rw [List.forall₂_map_right_iff]
  exact List.forall₂_same.mpr fun n _ => reportsOn_sortKeys settings n

end Verdicts

section Command

variable {w : World} {options : Options} {a b : List String} {file t : String}

theorem World.run_congr {c c' : Command} {args args' : List String}
    (h : w.invoke ⟨options, c⟩ = w.invoke ⟨options, c'⟩)
    (ha : parseArguments args = .ok (.invoke ⟨options, c⟩))
    (ha' : parseArguments args' = .ok (.invoke ⟨options, c'⟩)) : w.run args = w.run args' := by
  simp only [World.run, ha, ha', h]

/-- **A file of names counts as its names.** The program writes the same for names that are laid out
in a file as for names that follow the other arguments, and so it does for command lines that ask
for either. It exits with zero exactly if there are names and each of them is accepted; the report
has an entry for every name, in their order, which tells whether it is accepted, and it is the only
JSON value with the text that is written. -/
theorem invoke_check_of_laidOut (hfile : w.source file = .file t.toUTF8)
    (h : LaidOut (b.map String.toList) t.toList) :
    w.invoke ⟨options, .check a (some file)⟩ = w.invoke ⟨options, .check (a ++ b) none⟩ ∧
      (∀ args args', parseArguments args = .ok (.invoke ⟨options, .check a (some file)⟩) →
        parseArguments args' = .ok (.invoke ⟨options, .check (a ++ b) none⟩) →
        w.run args = w.run args') ∧
      ∀ settings events, w.settings options = .ok (settings, events) →
        ((w.invoke ⟨options, .check a (some file)⟩).exit = 0 ↔ Accepts settings (a ++ b)) ∧
        (options.format = some .json → a ++ b ≠ [] →
          ∃ entries, List.Forall₂ (ReportsOn settings) (a ++ b) entries ∧
            (w.invoke ⟨options, .check a (some file)⟩).stdout =
              joinLines [(Json.array entries).pretty] ∧
            ∀ j : Json, (w.invoke ⟨options, .check a (some file)⟩).stdout = joinLines [j.pretty] →
              j = .array entries) := by
  have hsame : w.invoke ⟨options, .check a (some file)⟩ =
      w.invoke ⟨options, .check (a ++ b) none⟩ := by
    apply World.invoke_congr
    intro settings format
    rw [World.perform, World.perform, World.namesToCheck_of_laidOut hfile h]
  refine ⟨hsame, fun args args' => World.run_congr hsame, fun settings events hs => ?_⟩
  rw [hsame]
  exact ⟨World.exit_check_iff hs, fun hf hne => World.stdout_check hs hne hf⟩

/-- A comment, a blank line and a name. -/
def listText : String := "# queries\r\n\n\t findByHome_zip \r\n"

/-- A world whose files hold nothing else. -/
def listWorld : World where
  var? _ := none
  entry _ := .file listText.toUTF8
  stdin := .empty
  isTerminal := false

theorem invoke_check_of_laidOut_listWorld :
    let checked := listWorld.invoke ⟨{ format := some .json }, .check ["countByName"] (some "q")⟩
    LaidOut (["findByHome_zip"].map String.toList) listText.toList ∧
      checked = listWorld.invoke
        ⟨{ format := some .json }, .check ["countByName", "findByHome_zip"] none⟩ ∧
      listWorld.run ["check", "--format=json", "--file", "q", "countByName"] =
        listWorld.run ["-fjson", "check", "countByName", "findByHome_zip"] ∧
      checked.exit = 0 ∧
      ∃ entries, List.Forall₂ (ReportsOn {}) ["countByName", "findByHome_zip"] entries ∧
        checked.stdout = joinLines [(Json.array entries).pretty] ∧
        ∀ j : Json, checked.stdout = joinLines [j.pretty] → j = .array entries := by
  intro checked
  have h : LaidOut (["findByHome_zip"].map String.toList) listText.toList :=
    laidOut_iff.mpr (by decide +kernel)
  have hs : listWorld.settings { format := some .json } = .ok ({}, [Log.inForce {}]) := rfl
  obtain ⟨hsame, hrun, htold⟩ := @invoke_check_of_laidOut listWorld { format := some .json }
    ["countByName"] ["findByHome_zip"] "q" listText rfl h
  obtain ⟨hexit, hreport⟩ := htold _ _ hs
  refine ⟨h, hsame, hrun _ _ ?_ ?_, hexit.mpr (by decide +kernel), hreport rfl ?_⟩
  · decide +kernel
  · decide +kernel
  · exact List.cons_ne_nil _ _

end Command

end Cli

end DerivedQuery
