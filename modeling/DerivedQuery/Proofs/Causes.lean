import DerivedQuery.Proofs.Beginning
import DerivedQuery.Proofs.Bytes
import DerivedQuery.Proofs.Completion

/-!
# Diagnostics point at their causes

What a scan has cut consists of letters, digits and separators, one byte each. Where it stops, the
text says why.

* `Diagnostic.PointsAt`, `Diagnostic.Divides`: what stands before a diagnostic and behind it;
* `Cuts.isNameChar_of_mem`: what has been cut;
* `exists_divides_of_splitAtAction`, `Cuts.exists_divides`: faults in front of the action and behind
  it;
* **`pointsAt_of_parse_error`**: every diagnostic points at its cause.
-/

namespace DerivedQuery

/-- What the diagnostic of a name says of the text before its position and the text behind it. -/
def Diagnostic.PointsAt (name before after : Text) : Diagnostic → Prop
  | .malformed n _ => n < byteLength name
  | .unterminated n _ => n = byteLength name
  | .danglingSeparator _ => ∃ t, after = separator :: t
  | .orderedBulk _ => Leads "OrderBy".toList after ∧
    ∃ a, actionOf? name = some a ∧ (a = .update ∨ a = .delete)
  | .invalidCount _ digits => "First".toList <:+ before ∧ digits = after.takeWhile Char.isDigit

/-- The diagnostic stands between two parts of the name: the first one has been read, and the second
one shows the cause. -/
structure Diagnostic.Divides (d : Diagnostic) (name before after : Text) : Prop where
  name_eq : name = before ++ after
  position : d.position = byteLength before
  chars : ∀ c ∈ before, isNameChar c = true
  pointsAt : d.PointsAt name before after

/-! ## What has been cut -/

section Chars

variable {settings : Settings} {m : Mode} {b : Bool} {prev : Option Char} {p : Piece} {r t : Text}
  {c c' : Cursor} {ps : List Piece}

theorem isNameChar_of_isAlphanum {d : Char} (h : d.isAlphanum = true) : isNameChar d = true := by
  simp [isNameChar, h]

theorem isNameChar_of_mem_words {word : Text} (h : word ∈ words) :
    ∀ d ∈ word, isNameChar d = true := by
  have key : ∀ word ∈ words, word.all isNameChar = true := by decide +kernel
  exact List.all_eq_true.mp (key word h)

theorem isNameChar_of_mem_limitWord : ∀ d ∈ limitWord, isNameChar d = true :=
  List.all_eq_true.mp (by decide +kernel)

theorem isNameChar_of_mem_segment {accepts : Category → Bool} {d : Char} {ds : Text}
    (hd : d.isAlpha = true) (ht : segmentTail accepts (ds ++ r) = ds) :
    ∀ e ∈ d :: ds, isNameChar e = true := by
  refine List.forall_mem_cons.mpr ⟨isNameChar_of_isAlphanum (isAlphanum_of_isAlpha hd), ?_⟩
  intro e he
  rw [← ht] at he
  exact isNameChar_of_isAlphanum (isAlphanum_of_mem_segmentTail e he)

/-- **A lexeme** is made of letters, digits and separators. -/
theorem Lexeme.isNameChar_of_mem (h : Lexeme settings m b prev p r) :
    ∀ d ∈ p.text, isNameChar d = true := by
  cases h with
  | finish => exact fun _ hd => absurd hd List.not_mem_nil
  | @leading a => exact isNameChar_of_mem_words a.keyword_mem_words
  | @capitalized a => exact isNameChar_of_mem_words a.capitalized_mem_words
  | preamble _ _ hs => exact (splitAtAction_append_eq_ok_iff.mp hs).2.1
  | limit _ _ ht =>
    intro d hd
    rcases List.mem_append.mp hd with hd | hd
    · exact isNameChar_of_mem_limitWord d hd
    · have hdigit := (takeWhile_append_eq_iff.mp ht).1 d hd
      exact isNameChar_of_isAlphanum (by simp [Char.isAlphanum, hdigit])
  | keyword _ hk =>
    exact isNameChar_of_mem_words (Keyword.mem_words (longestKeyword?_eq_some_iff.mp hk).1)
  | pathStart _ _ hs _ _ ht => exact isNameChar_of_mem_segment (isAlpha_of_startsPath hs) ht
  | pathPart _ hc ht => exact isNameChar_of_mem_segment hc ht
  | pathSeparator | itemSeparator => exact fun d hd => by rw [List.mem_singleton.mp hd]; rfl

theorem Cuts.isNameChar_of_mem (h : Cuts settings c ps c') :
    ∀ d ∈ textOf ps, isNameChar d = true := by
  induction h with
  | nil => exact fun _ hd => absurd hd List.not_mem_nil
  | cons hcut _ ih =>
    intro d hd
    rcases List.mem_append.mp hd with hd | hd
    · exact hcut.lexeme.isNameChar_of_mem d hd
    · exact ih d hd

theorem byteLength_eq_length (h : ∀ d ∈ t, isNameChar d = true) : byteLength t = t.length := by
  induction t with
  | nil => rfl
  | cons d ds ih =>
    obtain ⟨hd, hds⟩ := List.forall_mem_cons.mp h
    obtain ⟨hsize, -⟩ := exists_utf8EncodeChar_eq (isAscii_isNameChar d hd)
    rw [byteLength_cons, hsize, ih hds, List.length_cons, Nat.add_comm]

end Chars

/-! ## Faults -/

section Faults

variable {settings : Settings} {name u r t : Text} {c : Cursor} {ps : List Piece}
  {d e : Diagnostic}

theorem byteLength_lt_append (u : Text) (hr : r ≠ []) :
    byteLength u < byteLength (u ++ r) := by
  have hlength := length_le_byteLength r
  have hpos := List.length_pos_iff.mpr hr
  rw [byteLength_append]
  omega

theorem Action.eq_of_isBulk {a : Action} (h : a.isBulk = true) : a = .update ∨ a = .delete := by
  revert h
  cases a <;> decide

/-- **Where no action is found**, a character stands that no name has, or the name has ended. -/
theorem exists_divides_of_splitAtAction (h : splitAtAction name = .error e) :
    ∃ before after, e.Divides name before after := by
  obtain ⟨u, r, rfl, -, hu, -, hfault⟩ := exists_of_splitAtAction_eq_error h
  rcases hfault with ⟨rfl, rfl⟩ | ⟨hr, rfl⟩
  · exact ⟨u, [], rfl, rfl, hu, congrArg byteLength (List.append_nil u).symm⟩
  · exact ⟨u, r, rfl, rfl, hu, byteLength_lt_append u hr⟩

/-- **A scan that stops behind the action** stops at the cause. -/
theorem Cuts.exists_divides (h : Cuts settings (.ofName name) ps c) (hi : c.mode ≠ .initial)
    (hp : c.previous ≠ some separator) (hf : Fault c e) :
    ∃ before after, (e.shift (byteLength (textOf ps))).Divides name before after := by
  have hname : name = textOf ps ++ c.rest := h.rest_eq
  have hchars := h.isNameChar_of_mem
  have hword : ∀ d ∈ textOf ps ++ limitWord, isNameChar d = true := fun d hd =>
    (List.mem_append.mp hd).elim (hchars d) (isNameChar_of_mem_limitWord d)
  cases hf with
  | malformed ht | item ht =>
    refine ⟨textOf ps, c.rest, hname, rfl, hchars, ?_⟩
    rw [hname]
    exact byteLength_lt_append _ ht
  | dangling ht => exact ⟨textOf ps, c.rest, hname, rfl, hchars, ht hp⟩
  | ordered hb ht =>
    obtain ⟨a, ha, hbulk⟩ := h.exists_actionOf? hi
    exact ⟨textOf ps, c.rest, hname, rfl, hchars, ht, a, ha,
      Action.eq_of_isBulk (hbulk.symm.trans hb)⟩
  | unterminated ht =>
    refine ⟨textOf ps, c.rest, hname, rfl, hchars, ?_⟩
    rw [hname, ht, List.append_nil]
    rfl
  | limit _ ht =>
    refine ⟨textOf ps ++ limitWord, [], ?_, (byteLength_append _ _).symm, hword, ?_⟩
    · rw [hname, ht, List.append_nil]
    · rw [hname, ht]
      exact (byteLength_append _ _).symm
  | @count after _ ht =>
    refine ⟨textOf ps ++ limitWord, after, ?_, (byteLength_append _ _).symm, hword,
      List.suffix_append _ _, rfl⟩
    rw [hname, ht, List.append_assoc]

theorem exists_divides_of_tokenize (h : tokenize settings name = .error d) :
    ∃ before after, d.Divides name before after := by
  obtain ⟨ps, c, e, hcuts, hdone, he, rfl⟩ := tokenize_eq_error_iff.mp h
  rcases hcuts.eq_nil_or_exists_cut with ⟨rfl, rfl⟩ | ⟨c₁, p, hcut⟩
  · have hzero : e.shift (byteLength (textOf [])) = e := by cases e <;> simp [Diagnostic.shift]
    rw [hzero]
    exact exists_divides_of_splitAtAction (actionRun_eq_error he).2
  · obtain ⟨hi, hp, -⟩ := hcut.of_error hdone he
    exact hcuts.exists_divides hi hp (fault_of_nextPiece hi hdone he)

/-- **Every diagnostic points at its cause.** What stands before its position has been read: letters,
digits and separators, so that the position counts characters as well as bytes. A malformed name
goes on behind the position, and one that is not terminated ends there; a dangling separator, or the
order that the action of the name does not take, stands there; and so do the digits behind the word
that opens a limit. -/
theorem pointsAt_of_parse_error (h : parse settings name = .error d) :
    ∃ before after, name = before ++ after ∧ d.position = byteLength before ∧
      d.position = before.length ∧ (∀ c ∈ before, isNameChar c = true) ∧
        d.PointsAt name before after := by
  obtain ⟨before, after, hd⟩ := exists_divides_of_tokenize (parse_eq_error_iff.mp h)
  exact ⟨before, after, hd.name_eq, hd.position,
    hd.position.trans (byteLength_eq_length hd.chars), hd.chars, hd.pointsAt⟩

theorem pointsAt_of_parse_error_deleteByNameOrderBy :
    parse {} "deleteByNameOrderByÄ".toList = .error (.orderedBulk 12) ∧
      (∃ before after, "deleteByNameOrderByÄ".toList = before ++ after ∧ 12 = before.length ∧
        Leads "OrderBy".toList after ∧ ∃ a, actionOf? "deleteByNameOrderByÄ".toList = some a ∧
          (a = .update ∨ a = .delete)) ∧
      parse {} "findFirst007Ä".toList = .error (.invalidCount 9 "007".toList) ∧
      ∃ before after, "findFirst007Ä".toList = before ++ after ∧ 9 = before.length ∧
        "First".toList <:+ before ∧ "007".toList = after.takeWhile Char.isDigit := by
  have hbulk : parse {} "deleteByNameOrderByÄ".toList = .error (.orderedBulk 12) := by
    decide +kernel
  have hcount : parse {} "findFirst007Ä".toList = .error (.invalidCount 9 "007".toList) := by
    decide +kernel
  obtain ⟨u, t, hname, -, hlength, -, hpoints⟩ := pointsAt_of_parse_error hbulk
  obtain ⟨u', t', hname', -, hlength', -, hpoints'⟩ := pointsAt_of_parse_error hcount
  exact ⟨hbulk, ⟨u, t, hname, hlength, hpoints⟩, hcount, u', t', hname', hlength', hpoints'⟩

end Faults

end DerivedQuery
