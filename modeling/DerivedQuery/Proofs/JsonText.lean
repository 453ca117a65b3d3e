import Mathlib
import DerivedQuery.Blank
import DerivedQuery.Json

/-!
# JSON values told from their text

A report is written line by line. What is written shows where every value in it ends, and so what
has been reported.

* `splitLines_append`: a text is split at its line feeds;
* `Json.induction`: the items of an array and the values of an object come first;
* `unescape?_escapeChar`, `quote_append_inj`: a string ends with its quote;
* `Delimited`: the lines of a value are told from what follows them;
* `commaSeparated_map_inj`, `bracketed_append_inj`: so are those of a list of values;
* **`delimited_lines`**: so are those of any value;
* **`pretty_injective`**: no two values have the same text.
-/

namespace DerivedQuery

/-! ## Lines -/

section Lines

variable {l : Text}

theorem splitLines_of_not_mem (h : '\n' ∉ l) : splitLines l = [l] := by
  induction l with
  | nil => rfl
  | cons c l ih =>
    rw [List.mem_cons, not_or] at h
    rw [splitLines, if_neg (Ne.symm h.1), ih h.2]

theorem splitLines_append (h : '\n' ∉ l) (t : Text) :
    splitLines (l ++ '\n' :: t) = l :: splitLines t := by
  induction l with
  | nil => rw [List.nil_append, splitLines, if_pos rfl]
  | cons c l ih =>
    rw [List.mem_cons, not_or] at h
    rw [List.cons_append, splitLines, if_neg (Ne.symm h.1), ih h.2]

theorem splitLines_intercalate {ls : List String} (hne : ls ≠ [])
    (h : ∀ l ∈ ls, '\n' ∉ l.toList) :
    splitLines ("\n".intercalate ls).toList = ls.map String.toList := by
  induction ls with
  | nil => exact absurd rfl hne
  | cons l ls ih =>
    rw [List.forall_mem_cons] at h
    cases ls with
    | nil =>
      rw [String.intercalate_singleton, splitLines_of_not_mem h.1]
      rfl
    | cons l' ls =>
      have hcons : ("\n".intercalate (l :: l' :: ls)).toList =
          l.toList ++ '\n' :: ("\n".intercalate (l' :: ls)).toList := by
        rw [String.intercalate_cons_cons, String.toList_append, String.toList_append,
          List.append_assoc]
        rfl
      rw [hcons, splitLines_append h.1, ih (List.cons_ne_nil _ _) h.2]
      rfl

end Lines

namespace Json

@[elab_as_elim]
theorem induction {P : Json → Prop} (null : P .null) (bool : ∀ b, P (.bool b))
    (number : ∀ n, P (.number n)) (string : ∀ s, P (.string s))
    (array : ∀ items, (∀ j ∈ items, P j) → P (.array items))
    (object : ∀ fields, (∀ f ∈ fields, P (Prod.snd f)) → P (.object fields)) (j : Json) : P j := by
  refine @Json.rec P (fun items => ∀ j ∈ items, P j) (fun fields => ∀ f ∈ fields, P f.2)
    (fun f => P f.2) null bool number string array object ?_ ?_ ?_ ?_ (fun _ _ h => h) j
  · exact fun _ h => absurd h List.not_mem_nil
  · exact fun _ _ h hs => List.forall_mem_cons.mpr ⟨h, hs⟩
  · exact fun _ h => absurd h List.not_mem_nil
  · exact fun _ _ h hs => List.forall_mem_cons.mpr ⟨h, hs⟩

/-! ## Strings -/

/-- The number of a hexadecimal digit. -/
def hexValue (c : Char) : Nat := if c.isDigit then c.toNat - 48 else c.toNat - 87

/-- The first character within a string, and what follows it. -/
def unescape? : Text → Option (Char × Text)
  | '\\' :: 'u' :: _ :: _ :: x :: y :: t =>
    some (Char.ofNat (16 * hexValue x + hexValue y), t)
  | '\\' :: 'n' :: t => some ('\n', t)
  | '\\' :: 'r' :: t => some ('\r', t)
  | '\\' :: 't' :: t => some ('\t', t)
  | '\\' :: 'b' :: t => some ('\x08', t)
  | '\\' :: 'f' :: t => some ('\x0c', t)
  | '\\' :: c :: t => some (c, t)
  | '"' :: _ => none
  | c :: t => some (c, t)
  | [] => none

theorem hexValue_digitChar : ∀ n < 16, hexValue n.digitChar = n := by decide

theorem unescape?_escapeControl {c : Char} (h : c.toNat < 32) (t : Text) :
    unescape? ((escapeControl c).toList ++ t) = some (c, t) := by
  have htext : (escapeControl c).toList ++ t = '\\' :: 'u' :: '0' :: '0' ::
      (c.toNat / 16).digitChar :: (c.toNat % 16).digitChar :: t := by
    simp [escapeControl, Char.toString_eq_singleton]
  have hnum : 16 * (c.toNat / 16) + c.toNat % 16 = c.toNat := Nat.div_add_mod _ _
  rw [htext, unescape?, hexValue_digitChar _ (by omega), hexValue_digitChar _ (by omega), hnum,
    Char.ofNat_toNat]

theorem unescape?_cons {c : Char} (hq : c ≠ '"') (hb : c ≠ '\\') (t : Text) :
    unescape? (c :: t) = some (c, t) := by
  rw [unescape?.eq_def]
  split <;> simp_all

/-- **Escaping is undone** character by character, whatever follows. -/
theorem unescape?_escapeChar (c : Char) (t : Text) :
    unescape? ((escapeChar c).toList ++ t) = some (c, t) := by
  unfold escapeChar
  split_ifs with hq hb hn hr ht h8 hc hlt
  · rw [hq]; rfl
  · rw [hb]; rfl
  · rw [hn]; rfl
  · rw [hr]; rfl
  · rw [ht]; rfl
  · rw [h8]; rfl
  · rw [hc]; rfl
  · exact unescape?_escapeControl hlt t
  · rw [Char.toString_eq_singleton, String.toList_singleton, List.singleton_append]
    exact unescape?_cons hq hb t

theorem toList_quote (s : String) :
    (quote s).toList = '"' :: (s.toList.flatMap fun c => (escapeChar c).toList) ++ ['"'] := by
  have hfold : ∀ (cs : Text) (out : String),
      (cs.foldl (fun out c => out ++ escapeChar c) out).toList =
        out.toList ++ cs.flatMap fun c => (escapeChar c).toList := by
    intro cs
    induction cs with
    | nil => simp
    | cons c cs ih =>
      intro out
      rw [List.foldl_cons, ih, String.toList_append, List.flatMap_cons, List.append_assoc]
  rw [quote, String.toList_append, hfold]
  rfl

theorem escape_append_inj {cs ds u v : Text}
    (h : (cs.flatMap fun c => (escapeChar c).toList) ++ '"' :: u =
      (ds.flatMap fun c => (escapeChar c).toList) ++ '"' :: v) : cs = ds ∧ u = v := by
  have hquote : ∀ t, unescape? ('"' :: t) = none := fun _ => rfl
  induction cs generalizing ds with
  | nil =>
    cases ds with
    | nil => exact ⟨rfl, (List.cons.inj h).2⟩
    | cons d ds =>
      have h' := congrArg unescape? h
      rw [List.flatMap_nil, List.nil_append, hquote, List.flatMap_cons, List.append_assoc,
        unescape?_escapeChar] at h'
      cases h'
  | cons c cs ih =>
    have h' := congrArg unescape? h
    rw [List.flatMap_cons, List.append_assoc, unescape?_escapeChar] at h'
    cases ds with
    | nil =>
      rw [List.flatMap_nil, List.nil_append, hquote] at h'
      cases h'
    | cons d ds =>
      rw [List.flatMap_cons, List.append_assoc, unescape?_escapeChar, Option.some_inj,
        Prod.mk.injEq] at h'
      obtain ⟨rfl, hu⟩ := ih h'.2
      exact ⟨by rw [h'.1], hu⟩

/-- **A string ends with its quote.** -/
theorem quote_append_inj {s s' u v : String} (h : quote s ++ u = quote s' ++ v) :
    s = s' ∧ u = v := by
  have h' := congrArg String.toList h
  simp only [String.toList_append, toList_quote, List.cons_append, List.append_assoc,
    List.nil_append, List.cons.injEq, true_and] at h'
  obtain ⟨hs, hu⟩ := escape_append_inj h'
  exact ⟨String.toList_inj.mp hs, String.toList_inj.mp hu⟩

/-! ## Ends of values -/

/-- What stands behind a value, which another one may follow. -/
def comma (more : Bool) : String := if more then "," else ""

/-- The lines of a value, which another one may follow. -/
def closed (more : Bool) (ls : List String) : List String := if more then withComma ls else ls

theorem comma_injective {more more' : Bool} (h : comma more = comma more') : more = more' := by
  revert more more'
  decide

theorem withComma_append_singleton (ls : List String) (l : String) :
    withComma (ls ++ [l]) = ls ++ [l ++ ","] := by
  induction ls with
  | nil => rfl
  | cons l' ls ih =>
    have hne : ls ++ [l] ≠ [] := by simp
    obtain ⟨x, xs, hx⟩ := List.exists_cons_of_ne_nil hne
    rw [List.cons_append, List.cons_append, hx, withComma, ← hx, ih]
    simp

theorem closed_append_singleton (more : Bool) (ls : List String) (l : String) :
    closed more (ls ++ [l]) = ls ++ [l ++ comma more] := by
  cases more with
  | false => simp [closed, comma]
  | true => exact withComma_append_singleton ls l

theorem closed_singleton (more : Bool) (l : String) : closed more [l] = [l ++ comma more] :=
  closed_append_singleton more [] l

theorem of_closed_singleton {more more' : Bool} {l l' : String} {rest rest' : List String}
    (h : closed more [l] ++ rest = closed more' [l'] ++ rest') :
    l ++ comma more = l' ++ comma more' ∧ rest = rest' := by
  rw [closed_singleton, closed_singleton] at h
  exact List.cons.inj h

theorem exists_closed_cons (more : Bool) (l : String) (ls : List String) :
    ∃ s ls', closed more (l :: ls) = (l ++ s) :: ls' := by
  cases ls with
  | nil => exact ⟨comma more, [], closed_singleton more l⟩
  | cons l' ls =>
    cases more with
    | false => exact ⟨"", l' :: ls, by simp [closed]⟩
    | true => exact ⟨"", withComma (l' :: ls), by simp [closed, withComma]⟩

theorem closed_headed (more : Bool) (head : String) {ls : List String} (hne : ls ≠ []) :
    closed more (headed head ls) = headed head (closed more ls) := by
  obtain ⟨l, ls, rfl⟩ := List.exists_cons_of_ne_nil hne
  cases ls with
  | nil => rw [headed, closed_singleton, closed_singleton, headed, String.append_assoc]
  | cons l' ls => cases more <;> rfl

theorem commaSeparated_cons (ls : List String) (groups : List (List String)) :
    commaSeparated (ls :: groups) = closed (!groups.isEmpty) ls ++ commaSeparated groups := by
  cases groups with
  | nil => exact (List.append_nil ls).symm
  | cons ls' groups => rfl

/-- The lines of the value are told from what follows them, whether or not another one does. -/
def Delimited {α : Type} (f : α → List String) (a : α) : Prop :=
  ∀ a' more more' rest rest', closed more (f a) ++ rest = closed more' (f a') ++ rest' →
    a = a' ∧ more = more' ∧ rest = rest'

section Groups

variable {α : Type} {f : α → List String}

theorem commaSeparated_cons_ne_nil {ls : List String} (hne : ls ≠ [])
    (groups : List (List String)) : commaSeparated (ls :: groups) ≠ [] := by
  obtain ⟨l, ls, rfl⟩ := List.exists_cons_of_ne_nil hne
  obtain ⟨s, ls', h⟩ := exists_closed_cons (!groups.isEmpty) l ls
  rw [commaSeparated_cons, h]
  exact List.cons_ne_nil _ _

/-- **Lists are told by their lines** if their values are. -/
theorem commaSeparated_map_inj {as as' : List α} (hne : ∀ a, f a ≠ [])
    (hf : ∀ a ∈ as, Delimited f a)
    (h : commaSeparated (as.map f) = commaSeparated (as'.map f)) : as = as' := by
  induction as generalizing as' with
  | nil =>
    cases as' with
    | nil => rfl
    | cons a' as' => exact absurd h.symm (commaSeparated_cons_ne_nil (hne a') _)
  | cons a as ih =>
    rw [List.forall_mem_cons] at hf
    cases as' with
    | nil => exact absurd h (commaSeparated_cons_ne_nil (hne a) _)
    | cons a' as' =>
      rw [List.map_cons, List.map_cons, commaSeparated_cons, commaSeparated_cons] at h
      obtain ⟨rfl, -, hrest⟩ := hf.1 _ _ _ _ _ h
      rw [ih hf.2 hrest]

theorem indented_append_inj {body body' : List String} {l l' : String} {rest rest' : List String}
    (hl : l.toList.head? ≠ some ' ') (hl' : l'.toList.head? ≠ some ' ')
    (h : body.map ("  " ++ ·) ++ l :: rest = body'.map ("  " ++ ·) ++ l' :: rest') :
    body = body' ∧ l = l' ∧ rest = rest' := by
  have hindent : ∀ x : String, ("  " ++ x).toList.head? = some ' ' := by
    intro x
    rw [String.toList_append]
    rfl
  induction body generalizing body' with
  | nil =>
    cases body' with
    | nil =>
      obtain ⟨rfl, rfl⟩ := List.cons.inj h
      exact ⟨rfl, rfl, rfl⟩
    | cons x body' =>
      obtain ⟨rfl, -⟩ := List.cons.inj h
      exact absurd (hindent x) hl
  | cons x body ih =>
    cases body' with
    | nil =>
      obtain ⟨rfl, -⟩ := List.cons.inj h
      exact absurd (hindent x) hl'
    | cons x' body' =>
      rw [List.map_cons, List.map_cons, List.cons_append, List.cons_append, List.cons.injEq] at h
      obtain ⟨rfl, hrest⟩ := ih h.2
      exact ⟨by rw [(String.append_right_inj _).mp h.1], hrest⟩

/-- **A body ends with its bracket**, which alone is not indented. -/
theorem bracketed_append_inj {opening closing : String} {more more' : Bool}
    {body body' rest rest' : List String} (hne : closing.toList ≠ [])
    (hclosing : closing.toList.head? ≠ some ' ')
    (h : closed more (bracketed opening closing body) ++ rest =
      closed more' (bracketed opening closing body') ++ rest') :
    body = body' ∧ more = more' ∧ rest = rest' := by
  have hopen : ∀ (more : Bool), opening ++ closing ++ comma more ≠ opening := by
    intro more he
    have hlen := congrArg (fun s => s.toList.length) he
    have hpos := List.length_pos_iff.mpr hne
    simp only [String.toList_append, List.length_append] at hlen
    omega
  have hend : ∀ (more : Bool), (closing ++ comma more).toList.head? ≠ some ' ' := by
    intro more
    rw [String.toList_append, List.head?_append_of_ne_nil _ hne]
    exact hclosing
  rcases eq_or_ne body [] with rfl | hb <;> rcases eq_or_ne body' [] with rfl | hb'
  · rw [bracketed, if_pos rfl] at h
    obtain ⟨hline, hrest⟩ := of_closed_singleton h
    exact ⟨rfl, comma_injective ((String.append_right_inj _).mp hline), hrest⟩
  · rw [bracketed, if_pos rfl, bracketed, if_neg hb', closed_singleton,
      closed_append_singleton] at h
    exact absurd (List.cons.inj h).1 (hopen more)
  · rw [bracketed, if_neg hb, bracketed, if_pos rfl, closed_singleton,
      closed_append_singleton] at h
    exact absurd (List.cons.inj h).1.symm (hopen more')
  · rw [bracketed, if_neg hb, bracketed, if_neg hb', closed_append_singleton,
      closed_append_singleton, List.append_assoc, List.append_assoc] at h
    obtain ⟨rfl, hline, hrest⟩ := indented_append_inj (hend more) (hend more') (List.cons.inj h).2
    exact ⟨rfl, comma_injective ((String.append_right_inj _).mp hline), hrest⟩

end Groups

/-! ## Values -/

theorem itemLines_eq_map (items : List Json) : itemLines items = items.map lines := by
  induction items with
  | nil => rfl
  | cons j js ih => rw [itemLines, ih, List.map_cons]

/-- The lines of a value under its key. -/
def keyedLines (f : String × Json) : List String := headed (quote f.1 ++ ": ") f.2.lines

theorem fieldLines_eq_map (fields : List (String × Json)) :
    fieldLines fields = fields.map keyedLines := by
  induction fields with
  | nil => rfl
  | cons f fields ih =>
    rw [fieldLines, ih, List.map_cons]
    rfl

/-- The character with which the text of the value begins, any digit counted as zero. -/
def leading : Json → Char
  | .null => 'n'
  | .bool b => if b then 't' else 'f'
  | .number _ => '0'
  | .string _ => '"'
  | .array _ => '['
  | .object _ => '\x7b'

theorem exists_lines_eq_cons (j : Json) : ∃ l ls c t, j.lines = l :: ls ∧ l.toList = c :: t ∧
    (if c.isDigit then '0' else c) = j.leading := by
  have hbracket : ∀ (opening closing : String) (body : List String),
      ∃ s ls, bracketed opening closing body = (opening ++ s) :: ls := by
    intro opening closing body
    unfold bracketed
    split
    · exact ⟨closing, [], rfl⟩
    · exact ⟨"", _, by rw [String.append_empty]; rfl⟩
  cases j with
  | null => exact ⟨_, _, _, _, rfl, rfl, rfl⟩
  | bool b => cases b <;> exact ⟨_, _, _, _, rfl, rfl, rfl⟩
  | number n =>
    obtain ⟨c, t, hc⟩ := List.exists_cons_of_ne_nil (Nat.toDigits_ne_nil (n := n) (b := 10))
    have hd : c.isDigit = true :=
      Nat.isDigit_of_mem_toDigits (by decide) (by decide) (hc ▸ List.mem_cons_self)
    exact ⟨_, _, c, t, rfl, Nat.toList_repr.trans hc, if_pos hd⟩
  | string s => exact ⟨_, _, _, _, rfl, toList_quote s, rfl⟩
  | array items =>
    obtain ⟨s, ls, h⟩ := hbracket "[" "]" (commaSeparated (itemLines items))
    exact ⟨_, _, '[', s.toList, h, String.toList_append, rfl⟩
  | object fields =>
    obtain ⟨s, ls, h⟩ := hbracket "\x7b" "\x7d" (commaSeparated (fieldLines fields))
    exact ⟨_, _, '\x7b', s.toList, h, String.toList_append, rfl⟩

theorem lines_ne_nil (j : Json) : j.lines ≠ [] := by
  obtain ⟨l, ls, c, t, h, -⟩ := exists_lines_eq_cons j
  rw [h]
  exact List.cons_ne_nil _ _

theorem keyedLines_ne_nil (f : String × Json) : keyedLines f ≠ [] := by
  obtain ⟨l, ls, h⟩ := List.exists_cons_of_ne_nil (lines_ne_nil f.2)
  rw [keyedLines, h]
  exact List.cons_ne_nil _ _

theorem leading_eq_of_closed {j j' : Json} {more more' : Bool} {rest rest' : List String}
    (h : closed more j.lines ++ rest = closed more' j'.lines ++ rest') :
    j.leading = j'.leading := by
  obtain ⟨l, ls, c, t, hl, hc, hlead⟩ := exists_lines_eq_cons j
  obtain ⟨l', ls', c', t', hl', hc', hlead'⟩ := exists_lines_eq_cons j'
  obtain ⟨s, us, hs⟩ := exists_closed_cons more l ls
  obtain ⟨s', us', hs'⟩ := exists_closed_cons more' l' ls'
  rw [hl, hl', hs, hs'] at h
  have hline := congrArg String.toList (List.cons.inj h).1
  rw [String.toList_append, String.toList_append, hc, hc'] at hline
  rw [← hlead, ← hlead', (List.cons.inj hline).1]

theorem repr_append_comma_inj {n m : Nat} {more more' : Bool}
    (h : n.repr ++ comma more = m.repr ++ comma more') : n = m ∧ more = more' := by
  have hdigits : ∀ (n : Nat) (more : Bool),
      (n.repr ++ comma more).toList.takeWhile Char.isDigit = n.repr.toList := by
    intro n more
    have hall : ∀ c ∈ n.repr.toList, c.isDigit = true := by
      rw [Nat.toList_repr]
      exact fun c => Nat.isDigit_of_mem_toDigits (by decide) (by decide)
    have hcomma : (comma more).toList.takeWhile Char.isDigit = [] := by cases more <;> rfl
    rw [String.toList_append, List.takeWhile_append_of_pos hall, hcomma, List.append_nil]
  have hrepr : n.repr = m.repr := by
    rw [← String.toList_inj, ← hdigits n more, h, hdigits]
  obtain rfl := Nat.repr_inj.mp hrepr
  exact ⟨rfl, comma_injective ((String.append_right_inj _).mp h)⟩

theorem delimited_keyedLines {f : String × Json} (h : Delimited lines f.2) :
    Delimited keyedLines f := by
  intro f' more more' rest rest' he
  obtain ⟨l, ls, hl⟩ := List.exists_cons_of_ne_nil (lines_ne_nil f.2)
  obtain ⟨l', ls', hl'⟩ := List.exists_cons_of_ne_nil (lines_ne_nil f'.2)
  obtain ⟨s, us, hs⟩ := exists_closed_cons more l ls
  obtain ⟨s', us', hs'⟩ := exists_closed_cons more' l' ls'
  rw [keyedLines, keyedLines, closed_headed _ _ (lines_ne_nil _),
    closed_headed _ _ (lines_ne_nil _), hl, hl', hs, hs', headed, headed] at he
  obtain ⟨hline, hrest⟩ := List.cons.inj he
  rw [String.append_assoc, String.append_assoc] at hline
  obtain ⟨hkey, hline⟩ := quote_append_inj hline
  have hlines : closed more f.2.lines ++ rest = closed more' f'.2.lines ++ rest' := by
    rw [hl, hl', hs, hs']
    exact List.cons_eq_cons.mpr ⟨(String.append_right_inj _).mp hline, hrest⟩
  obtain ⟨hvalue, htold⟩ := h _ _ _ _ _ hlines
  exact ⟨Prod.ext hkey hvalue, htold⟩

theorem bool_append_comma_inj : ∀ {b b' more more' : Bool},
    (if b then "true" else "false") ++ comma more =
      (if b' then "true" else "false") ++ comma more' → b = b' ∧ more = more' := by decide

/-- **The lines of a value** are told from what follows them. -/
theorem delimited_lines (j : Json) : Delimited lines j := by
  -- the first character decides which kind of value the other one is
  induction j using Json.induction with
  | null =>
    intro j' more more' rest rest' h
    have hlead := leading_eq_of_closed h
    cases j' with
    | null =>
      obtain ⟨hline, hrest⟩ := of_closed_singleton h
      exact ⟨rfl, comma_injective ((String.append_right_inj _).mp hline), hrest⟩
    | _ => grind [leading]
  | bool b =>
    intro j' more more' rest rest' h
    have hlead := leading_eq_of_closed h
    cases j' with
    | bool b' =>
      obtain ⟨hline, hrest⟩ := of_closed_singleton h
      obtain ⟨rfl, rfl⟩ := bool_append_comma_inj hline
      exact ⟨rfl, rfl, hrest⟩
    | _ => grind [leading]
  | number n =>
    intro j' more more' rest rest' h
    have hlead := leading_eq_of_closed h
    cases j' with
    | number n' =>
      obtain ⟨hline, hrest⟩ := of_closed_singleton h
      obtain ⟨rfl, rfl⟩ := repr_append_comma_inj hline
      exact ⟨rfl, rfl, hrest⟩
    | _ => grind [leading]
  | string s =>
    intro j' more more' rest rest' h
    have hlead := leading_eq_of_closed h
    cases j' with
    | string s' =>
      obtain ⟨hline, hrest⟩ := of_closed_singleton h
      obtain ⟨rfl, hcomma⟩ := quote_append_inj hline
      exact ⟨rfl, comma_injective hcomma, hrest⟩
    | _ => grind [leading]
  | array items ih =>
    intro j' more more' rest rest' h
    have hlead := leading_eq_of_closed h
    cases j' with
    | array items' =>
      obtain ⟨hbody, htold⟩ := bracketed_append_inj (by decide) (by decide) h
      rw [itemLines_eq_map, itemLines_eq_map] at hbody
      exact ⟨congrArg array (commaSeparated_map_inj lines_ne_nil ih hbody), htold⟩
    | _ => grind [leading]
  | object fields ih =>
    intro j' more more' rest rest' h
    have hlead := leading_eq_of_closed h
    cases j' with
    | object fields' =>
      obtain ⟨hbody, htold⟩ := bracketed_append_inj (by decide) (by decide) h
      rw [fieldLines_eq_map, fieldLines_eq_map] at hbody
      have hfields := commaSeparated_map_inj keyedLines_ne_nil
        (fun f hf => delimited_keyedLines (ih f hf)) hbody
      exact ⟨congrArg object hfields, htold⟩
    | _ => grind [leading]

/-! ## Texts -/

/-- No line goes on in the next one. -/
def Unbroken (ls : List String) : Prop := ∀ l ∈ ls, '\n' ∉ l.toList

theorem not_mem_escapeChar (c : Char) : '\n' ∉ (escapeChar c).toList := by
  have hdigit : ∀ n < 16, n.digitChar ≠ '\n' := by decide
  unfold escapeChar
  split_ifs with hq hb hn hr ht h8 hc hlt
  · decide
  · decide
  · decide
  · decide
  · decide
  · decide
  · decide
  · have hhigh := hdigit (c.toNat / 16) (by omega)
    have hlow := hdigit (c.toNat % 16) (by omega)
    simp [escapeControl, Char.toString_eq_singleton, hhigh.symm, hlow.symm]
  · rw [Char.toString_eq_singleton, String.toList_singleton, List.mem_singleton]
    exact Ne.symm hn

theorem not_mem_quote (s : String) : '\n' ∉ (quote s).toList := by
  rw [toList_quote]
  simp [not_mem_escapeChar]

section Unbroken

theorem not_mem_append {s t : String} :
    '\n' ∉ (s ++ t).toList ↔ '\n' ∉ s.toList ∧ '\n' ∉ t.toList := by
  rw [String.toList_append, List.mem_append, not_or]

variable {ls : List String} {groups : List (List String)} {head opening closing : String}

theorem Unbroken.singleton {l : String} (h : '\n' ∉ l.toList) : Unbroken [l] := by
  simpa [Unbroken] using h

theorem Unbroken.headed (hh : '\n' ∉ head.toList) (h : Unbroken ls) :
    Unbroken (headed head ls) := by
  cases ls with
  | nil => exact .singleton hh
  | cons l ls =>
    rw [Unbroken, List.forall_mem_cons] at h
    rw [Json.headed, Unbroken, List.forall_mem_cons, not_mem_append]
    exact ⟨⟨hh, h.1⟩, h.2⟩

theorem Unbroken.closed (more : Bool) (h : Unbroken ls) : Unbroken (closed more ls) := by
  rcases List.eq_nil_or_concat ls with rfl | ⟨us, l, rfl⟩
  · cases more <;> exact h
  · rw [List.concat_eq_append, Unbroken, List.forall_mem_append] at h
    rw [List.concat_eq_append, closed_append_singleton, Unbroken, List.forall_mem_append]
    refine ⟨h.1, Unbroken.singleton (not_mem_append.mpr ⟨h.2 l List.mem_cons_self, ?_⟩)⟩
    cases more <;> decide

theorem Unbroken.commaSeparated (h : ∀ ls ∈ groups, Unbroken ls) :
    Unbroken (commaSeparated groups) := by
  induction groups with
  | nil => exact fun _ h => absurd h List.not_mem_nil
  | cons ls groups ih =>
    rw [List.forall_mem_cons] at h
    rw [commaSeparated_cons, Unbroken, List.forall_mem_append]
    exact ⟨h.1.closed _, ih h.2⟩

theorem Unbroken.bracketed (ho : '\n' ∉ opening.toList) (hc : '\n' ∉ closing.toList)
    (h : Unbroken ls) : Unbroken (bracketed opening closing ls) := by
  unfold Json.bracketed
  split
  · exact .singleton (not_mem_append.mpr ⟨ho, hc⟩)
  · have hindent : Unbroken (ls.map ("  " ++ ·)) := by
      intro l hl
      obtain ⟨x, hx, rfl⟩ := List.mem_map.mp hl
      exact not_mem_append.mpr ⟨by decide, h x hx⟩
    rw [List.cons_append, Unbroken, List.forall_mem_cons, List.forall_mem_append]
    exact ⟨ho, hindent, Unbroken.singleton hc⟩

end Unbroken

theorem unbroken_lines (j : Json) : Unbroken j.lines := by
  induction j using Json.induction with
  | null => exact .singleton (by decide)
  | bool b => exact .singleton (by cases b <;> decide)
  | number n =>
    refine .singleton fun h => ?_
    rw [Nat.toString_eq_repr, Nat.toList_repr] at h
    exact absurd (Nat.isDigit_of_mem_toDigits (by decide) (by decide) h) (by decide)
  | string s => exact .singleton (not_mem_quote s)
  | array items ih =>
    rw [lines, itemLines_eq_map]
    refine .bracketed (by decide) (by decide) (.commaSeparated ?_)
    simpa using ih
  | object fields ih =>
    rw [lines, fieldLines_eq_map]
    refine .bracketed (by decide) (by decide) (.commaSeparated ?_)
    intro ls hls
    obtain ⟨f, hf, rfl⟩ := List.mem_map.mp hls
    exact .headed (not_mem_append.mpr ⟨not_mem_quote f.1, by decide⟩) (ih f hf)

theorem splitLines_pretty (j : Json) : splitLines j.pretty.toList = j.lines.map String.toList :=
  splitLines_intercalate (lines_ne_nil j) (unbroken_lines j)

/-- **No two values have the same text.** -/
theorem pretty_injective {j j' : Json} (h : j.pretty = j'.pretty) : j = j' := by
  have hlines : j.lines.map String.toList = j'.lines.map String.toList := by
    rw [← splitLines_pretty, ← splitLines_pretty, h]
  have hinj : Function.Injective String.toList := fun _ _ => String.toList_inj.mp
  have hclosed : closed false j.lines ++ [] = closed false j'.lines ++ [] :=
    congrArg (· ++ []) (List.map_injective_iff.mpr hinj hlines)
  exact (delimited_lines j _ _ _ _ _ hclosed).1

end Json

end DerivedQuery
