import Mathlib
import DerivedQuery.Keyword

/-!
# Words in a text

A word that is looked for in a name may begin in one token and end in a later one. What follows a
token matters only through the ends of words it completes and through the boundary it makes.

* `Leads`: a word at the start of a text, up to a boundary of camel case;
* `longestKeyword?_eq_none_iff`, **`longestKeyword?_eq_some_iff`**: the keyword that is found;
* `Kind.word?`, **`Keyword.mem_table_iff`**: the entries of the table;
* `IsTail`, `IsTail.cases`: the ends of words;
* `Subsumes`: a text completes no more ends of words than another, whatever stands before them;
* `Detached`: a text that completes none.
-/

namespace DerivedQuery

/-! ## Words at the start of a text -/

/-- The word stands at the start of the text, and a camel-case word may end after it. -/
def Leads (word text : Text) : Prop := ∃ rest, text = word ++ rest ∧ atBoundary rest = true

theorem matchKeyword?_eq_some_iff {text word rest : Text} :
    matchKeyword? text word = some rest ↔ text = word ++ rest ∧ atBoundary rest = true := by
  rw [matchKeyword?, Option.filter_eq_some_iff, List.isPrefixOf?_eq_some_iff_append_eq, eq_comm]

theorem isSome_matchKeyword?_iff {text word : Text} :
    (matchKeyword? text word).isSome = true ↔ Leads word text := by
  rw [Option.isSome_iff_exists]
  exact exists_congr fun rest => matchKeyword?_eq_some_iff

instance (word text : Text) : Decidable (Leads word text) :=
  decidable_of_iff _ isSome_matchKeyword?_iff

theorem leads_append_iff {word rest : Text} :
    Leads word (word ++ rest) ↔ atBoundary rest = true := by
  constructor
  · rintro ⟨r, h, hr⟩
    rwa [List.append_cancel_left h]
  · exact fun h => ⟨rest, rfl, h⟩

theorem leads_nil_iff {text : Text} : Leads [] text ↔ atBoundary text = true := by
  rw [← leads_append_iff, List.nil_append]

/-- A word either ends within the first of two texts, or its end leads the second one. -/
theorem leads_append_cases {word u t : Text} (h : Leads word (u ++ t)) :
    (∃ v, v ≠ [] ∧ u = word ++ v ∧ atBoundary (v ++ t) = true) ∨
      ∃ w, word = u ++ w ∧ Leads w t := by
  obtain ⟨rest, he, hb⟩ := h
  rcases List.append_eq_append_iff.mp he with ⟨w, rfl, rfl⟩ | ⟨v, rfl, rfl⟩
  · exact .inr ⟨w, rfl, rest, rfl, hb⟩
  · rcases eq_or_ne v [] with rfl | hv
    · exact .inr ⟨[], by simp, leads_nil_iff.mpr hb⟩
    · exact .inl ⟨v, hv, rfl, hb⟩

theorem isDigit_eq_false_of_isUpper {c : Char} (h : c.isUpper = true) : c.isDigit = false := by
  simp only [Char.isUpper, Char.isDigit] at h ⊢
  grind

theorem isLower_eq_false_of_isUpper {c : Char} (h : c.isUpper = true) : c.isLower = false := by
  simpa using Char.not_isLower_of_isUpper h

theorem atBoundary_append {v : Text} (hv : v ≠ []) (t : Text) :
    atBoundary (v ++ t) = atBoundary v := by
  cases v with
  | nil => exact absurd rfl hv
  | cons c cs => rfl

/-! ## The longest keyword -/

theorem Keyword.exists_cons {k : Keyword} (hk : k ∈ Keyword.table) :
    ∃ c cs, k.text = c :: cs ∧ c.isUpper = true := by
  have h : ∀ k ∈ Keyword.table, k.text.head?.any Char.isUpper = true := by decide +kernel
  cases he : k.text with
  | nil => simpa [he] using h k hk
  | cons c cs => exact ⟨c, cs, rfl, by simpa [he] using h k hk⟩

theorem Keyword.nodup_texts : (Keyword.table.map Keyword.text).Nodup := by decide +kernel

theorem Keyword.text_injective {k l : Keyword} (hk : k ∈ Keyword.table) (hl : l ∈ Keyword.table)
    (h : k.text = l.text) : k = l := List.inj_on_of_nodup_map Keyword.nodup_texts hk hl h

/-- Of two keywords that lead one text, one is longer. -/
theorem Keyword.eq_of_leads {k l : Keyword} {text : Text} (hk : k ∈ Keyword.table)
    (hl : l ∈ Keyword.table) (hkt : Leads k.text text) (hlt : Leads l.text text)
    (h : k.text.length = l.text.length) : k = l := by
  obtain ⟨r, hr, -⟩ := hkt
  obtain ⟨r', hr', -⟩ := hlt
  have he : k.text = l.text := (List.append_inj (hr.symm.trans hr') h).1
  exact Keyword.text_injective hk hl he

theorem Keyword.fits_iff {accepts : Category → Bool} {text : Text} {k : Keyword} :
    k.fits accepts text = true ↔ accepts k.kind.category = true ∧ Leads k.text text := by
  rw [Keyword.fits, Bool.and_eq_true, isSome_matchKeyword?_iff]

theorem longestKeyword?_eq_none_iff {accepts : Category → Bool} {text : Text} :
    longestKeyword? accepts text = none ↔
      ∀ k ∈ Keyword.table, accepts k.kind.category = true → ¬ Leads k.text text := by
  rw [longestKeyword?, List.find?_eq_none]
  simp only [Keyword.fits_iff, not_and]

theorem longestKeyword?_cons_eq_none {accepts : Category → Bool} {c : Char} (cs : Text)
    (hc : c.isUpper = false) : longestKeyword? accepts (c :: cs) = none := by
  rw [longestKeyword?_eq_none_iff]
  rintro k hk - ⟨r, hr, -⟩
  obtain ⟨d, ds, he, hd⟩ := Keyword.exists_cons hk
  rw [he] at hr
  rw [(List.cons.inj hr).1, hd] at hc
  exact Bool.noConfusion hc

theorem length_le_of_find? {p : Keyword → Bool} {l : List Keyword}
    (hl : l.Pairwise fun k m => m.text.length ≤ k.text.length) {k : Keyword}
    (h : l.find? p = some k) : ∀ m ∈ l, p m = true → m.text.length ≤ k.text.length := by
  obtain ⟨-, as, bs, rfl, has⟩ := List.find?_eq_some_iff_append.mp h
  intro m hm hp
  rcases List.mem_append.mp hm with hm | hm
  · simpa [hp] using has m hm
  · rcases List.mem_cons.mp hm with rfl | hm
    · exact le_rfl
    · exact List.rel_of_pairwise_cons (List.pairwise_append.mp hl).2.1 hm

/-- **The keyword that is found** is accepted, leads the text, and is the longest that does. -/
theorem longestKeyword?_eq_some_iff {accepts : Category → Bool} {text : Text} {k : Keyword} :
    longestKeyword? accepts text = some k ↔
      k ∈ Keyword.table ∧ accepts k.kind.category = true ∧ Leads k.text text ∧
        ∀ l ∈ Keyword.table, accepts l.kind.category = true → Leads l.text text →
          l.text.length ≤ k.text.length := by
  constructor
  · intro h
    have hf := Keyword.fits_iff.mp (List.find?_some h)
    exact ⟨List.mem_of_find?_eq_some h, hf.1, hf.2, fun l hl ha hs =>
      length_le_of_find? Keyword.pairwise_table h l hl (Keyword.fits_iff.mpr ⟨ha, hs⟩)⟩
  · rintro ⟨hk, ha, hs, hmax⟩
    cases h : longestKeyword? accepts text with
    | none => exact absurd hs (longestKeyword?_eq_none_iff.mp h k hk ha)
    | some m =>
      have hf := Keyword.fits_iff.mp (List.find?_some h)
      have hm := List.mem_of_find?_eq_some h
      have hle := length_le_of_find? Keyword.pairwise_table h k hk (Keyword.fits_iff.mpr ⟨ha, hs⟩)
      have hlen := le_antisymm (hmax m hm hf.1 hf.2) hle
      rw [Keyword.eq_of_leads hm hk hf.2 hs hlen]

/-! ## The words of the table -/

/-- The word of a kind of token that has one of its own. -/
def Kind.word? : Kind → Option Text
  | all => some "All".toList
  | distinct => some "Distinct".toList
  | aggregate k => if k.isAggregate then some k.title.toList else none
  | criteria => some "By".toList
  | ordering => some "OrderBy".toList
  | negation => some "Not".toList
  | ignoreCase => some "IgnoreCase".toList
  | operator o => some o.keyword
  | connective k => some k.keyword
  | direction d => some d.keyword
  | _ => none

namespace Keyword

/-- **The table** has an entry for every kind of token with a word, and no other one. -/
theorem mem_table_iff {k : Keyword} : k ∈ table ↔ k.kind.word? = some k.text := by
  constructor
  · have h : ∀ k ∈ table, k.kind.word? = some k.text := by decide
    exact h k
  · obtain ⟨text, kind⟩ := k
    intro h
    cases kind with
    | preamble | action | first | pathStart | pathPart | separator | finish => cases h
    | all | distinct | criteria | ordering | negation | ignoreCase =>
      obtain rfl := Option.some.inj h
      decide
    | aggregate k =>
      have hall : ∀ k ∈ ProjectionKind.all, k.isAggregate = true →
          ⟨k.title.toList, .aggregate k⟩ ∈ table := by decide
      simp only [Kind.word?] at h
      split_ifs at h with hk
      obtain rfl := Option.some.inj h
      exact hall k k.mem_all hk
    | operator o =>
      have hall : ∀ o ∈ Operator.all, ⟨o.keyword, .operator o⟩ ∈ table := by decide
      obtain rfl := Option.some.inj h
      exact hall o o.mem_all
    | connective k =>
      have hall : ∀ k ∈ Connective.all, ⟨k.keyword, .connective k⟩ ∈ table := by decide
      obtain rfl := Option.some.inj h
      exact hall k k.mem_all
    | direction d =>
      have hall : ∀ d ∈ Direction.all, ⟨d.keyword, .direction d⟩ ∈ table := by decide
      obtain rfl := Option.some.inj h
      exact hall d d.mem_all

theorem mem_table (kind : Kind) {word : Text} (h : kind.word? = some word) :
    ⟨word, kind⟩ ∈ table := mem_table_iff.mpr h

theorem kind_injective {k l : Keyword} (hk : k ∈ table) (hl : l ∈ table)
    (h : k.kind = l.kind) : k = l := by
  apply text_injective hk hl
  apply Option.some.inj
  rw [← mem_table_iff.mp hk, ← mem_table_iff.mp hl, h]

end Keyword

/-! ## Actions -/

theorem Leads.isPrefix {word text : Text} (h : Leads word text) : word <+: text := by
  obtain ⟨r, rfl, -⟩ := h
  exact List.prefix_append _ _

/-- Of words none of which begins another, at most one leads a text. -/
theorem find?_leads_eq_some_iff {word : Action → Text}
    (hw : ∀ a ∈ Action.all, ∀ b ∈ Action.all, word a <+: word b → a = b) {text : Text}
    {a : Action} :
    Action.all.find? (fun a => (matchKeyword? text (word a)).isSome) = some a ↔
      Leads (word a) text := by
  constructor
  · intro h
    have hf := List.find?_some h
    exact isSome_matchKeyword?_iff.mp hf
  · intro h
    have hsome : (Action.all.find? fun a => (matchKeyword? text (word a)).isSome).isSome = true :=
      List.find?_isSome.mpr ⟨a, a.mem_all, isSome_matchKeyword?_iff.mpr h⟩
    obtain ⟨b, hb⟩ := Option.isSome_iff_exists.mp hsome
    have hf := List.find?_some hb
    have hl := isSome_matchKeyword?_iff.mp hf
    rw [hb]
    rcases List.prefix_or_prefix_of_prefix h.isPrefix hl.isPrefix with hp | hp
    · rw [hw a a.mem_all b b.mem_all hp]
    · rw [hw b b.mem_all a a.mem_all hp]

theorem leadingAction?_eq_some_iff {text : Text} {a : Action} :
    leadingAction? text = some a ↔ Leads a.keyword text :=
  find?_leads_eq_some_iff (by decide +kernel)

theorem capitalizedAction?_eq_some_iff {text : Text} {a : Action} :
    capitalizedAction? text = some a ↔ Leads a.capitalized text :=
  find?_leads_eq_some_iff (by decide +kernel)

theorem leadingAction?_eq_none_iff {text : Text} :
    leadingAction? text = none ↔ ∀ a : Action, ¬ Leads a.keyword text := by
  simp only [← leadingAction?_eq_some_iff, Option.eq_none_iff_forall_ne_some, ne_eq]

theorem capitalizedAction?_eq_none_iff {text : Text} :
    capitalizedAction? text = none ↔ ∀ a : Action, ¬ Leads a.capitalized text := by
  simp only [← capitalizedAction?_eq_some_iff, Option.eq_none_iff_forall_ne_some, ne_eq]

/-! ## The ends of words -/

/-- Every word that is looked for in a name. -/
def words : List Text :=
  Keyword.table.map Keyword.text ++ Action.all.map Action.keyword ++
    Action.all.map Action.capitalized

theorem Keyword.mem_words {k : Keyword} (hk : k ∈ Keyword.table) : k.text ∈ words := by
  simp only [words, List.mem_append, List.mem_map]
  exact .inl (.inl ⟨k, hk, rfl⟩)

theorem Action.exists_keyword_eq_cons (a : Action) :
    ∃ c cs, a.keyword = c :: cs ∧ c.isLower = true := by
  cases a <;> exact ⟨_, _, rfl, by decide⟩

theorem Action.exists_capitalized_eq_cons (a : Action) :
    ∃ c cs, a.capitalized = c :: cs ∧ c.isUpper = true := by
  cases a <;> exact ⟨_, _, rfl, by decide⟩

theorem byteLength_capitalized (a : Action) : byteLength a.capitalized = byteLength a.keyword := by
  cases a <;> rfl

theorem Action.keyword_mem_words (a : Action) : a.keyword ∈ words := by
  simp only [words, List.mem_append, List.mem_map]
  exact .inl (.inr ⟨a, a.mem_all, rfl⟩)

theorem Action.capitalized_mem_words (a : Action) : a.capitalized ∈ words := by
  simp only [words, List.mem_append, List.mem_map]
  exact .inr ⟨a, a.mem_all, rfl⟩

/-- What remains of a word after one letter or more. -/
def IsTail (w : Text) : Prop := ∃ u, u ≠ [] ∧ u ++ w ∈ words

theorem IsTail.of_append {u w : Text} (h : IsTail (u ++ w)) : IsTail w := by
  obtain ⟨v, hv, hm⟩ := h
  exact ⟨v ++ u, by simp [hv], by rwa [List.append_assoc]⟩

/-- The ends of words that begin with an upper-case letter. -/
def innerWords : List Text :=
  ["ThanEqual".toList, "Than".toList, "Equal".toList, "Case".toList, "With".toList, "By".toList]

/-- The end of a word is empty, begins with a lower-case letter, or is one of a few words. -/
theorem IsTail.cases {w : Text} (h : IsTail w) :
    w = [] ∨ (∃ c cs, w = c :: cs ∧ c.isLower = true) ∨ w ∈ innerWords := by
  obtain ⟨u, hu, hm⟩ := h
  have key : ∀ x ∈ words, ∀ y ∈ x.tail.tails,
      y = [] ∨ y.head?.any Char.isLower = true ∨ y ∈ innerWords := by decide +kernel
  have hw : w ∈ (u ++ w).tail.tails := by
    rw [List.mem_tails, List.tail_append_of_ne_nil hu]
    exact List.suffix_append _ _
  rcases key _ hm w hw with h | h | h
  · exact .inl h
  · cases w with
    | nil => exact .inl rfl
    | cons c cs => exact .inr (.inl ⟨c, cs, rfl, by simpa using h⟩)
  · exact .inr (.inr h)

/-! ## What follows a token -/

/-- The second text completes no end of a word that the first one does not complete. -/
def Subsumes (t t' : Text) : Prop := ∀ w, IsTail w → Leads w t' → Leads w t

theorem Subsumes.refl (t : Text) : Subsumes t t := fun _ _ h => h

/-- **A word that begins before the second text also does before the first one.** -/
theorem Subsumes.leads {t t' u word : Text} (h : Subsumes t t') (hword : IsTail word ∨
    u ≠ [] ∧ word ∈ words) (hl : Leads word (u ++ t')) : Leads word (u ++ t) := by
  rcases leads_append_cases hl with ⟨v, hv, rfl, hb⟩ | ⟨w, rfl, hw⟩
  · refine ⟨v ++ t, by simp, ?_⟩
    rwa [atBoundary_append hv] at hb ⊢
  · have hw' : IsTail w := hword.elim IsTail.of_append fun h => ⟨u, h.1, h.2⟩
    obtain ⟨r, rfl, hr⟩ := h w hw' hw
    exact ⟨r, by simp, hr⟩

theorem Subsumes.append {t t' : Text} (h : Subsumes t t') (u : Text) :
    Subsumes (u ++ t) (u ++ t') := fun _ hw hl => h.leads (.inl hw) hl

theorem Subsumes.longestKeyword?_eq_none {t t' u : Text} {accepts : Category → Bool}
    (h : Subsumes t t') (hu : u ≠ []) (hn : longestKeyword? accepts (u ++ t) = none) :
    longestKeyword? accepts (u ++ t') = none := by
  rw [longestKeyword?_eq_none_iff] at hn ⊢
  exact fun k hk ha hl => hn k hk ha (h.leads (.inr ⟨hu, Keyword.mem_words hk⟩) hl)

/-- A text that completes no word which begins before it, and that ends one. -/
def Detached (t : Text) : Prop := atBoundary t = true ∧ ∀ w ∈ innerWords, ¬ Leads w t

instance (t : Text) : Decidable (Detached t) := by unfold Detached; infer_instance

theorem IsTail.eq_nil_or_mem {w t : Text} (hw : IsTail w) (ht : atBoundary t = true)
    (h : Leads w t) : w = [] ∨ w ∈ innerWords := by
  rcases hw.cases with h0 | ⟨c, cs, rfl, hc⟩ | hi
  · exact .inl h0
  · obtain ⟨r, rfl, -⟩ := h
    simp [DerivedQuery.atBoundary, hc] at ht
  · exact .inr hi

theorem Detached.subsumes {t t' : Text} (h : Detached t') (ht : atBoundary t = true) :
    Subsumes t t' := by
  intro w hw hl
  rcases hw.eq_nil_or_mem h.1 hl with rfl | hi
  · exact leads_nil_iff.mpr ht
  · exact absurd hl (h.2 w hi)

end DerivedQuery
