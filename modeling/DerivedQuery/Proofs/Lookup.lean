import DerivedQuery.Proofs.Bytes

/-!
# Keywords looked up in a name

A lookup takes the first entry of the table that fits. The entry it takes depends on the categories
asked for, and a keyword may fit where a longer one with the same letters does not, since a word
goes on behind that one. What is found is told here by the bytes of the name alone.

* `continuesWord`: the bytes with which a camel-case word goes on;
* `Keyword.Applies`: a keyword that is asked for and stands at the start of a text;
* `Keyword.fits_iff_applies`: a keyword fits exactly if it applies;
* **`longestKeyword?_eq_iff_applies`**: of the keywords that apply, the longest is found.
-/

namespace DerivedQuery

/-! ## Word boundaries -/

/-- A byte with which a camel-case word goes on: an ASCII lower-case letter or an ASCII digit. -/
def continuesWord (b : UInt8) : Bool :=
  'a'.toUInt8 ≤ b && b ≤ 'z'.toUInt8 || '0'.toUInt8 ≤ b && b ≤ '9'.toUInt8

theorem continuesWord_eq (b : UInt8) :
    continuesWord b = (b.toChar.isLower || b.toChar.isDigit) := by
  have hval : b.toChar.val.toNat = b.toNat := rfl
  simp only [continuesWord, Char.isLower, Char.isDigit, ge_iff_le, UInt8.le_iff_toNat_le,
    UInt32.le_iff_toNat_le, hval]
  rfl

/-- **A camel-case word may end before a text** where no byte follows with which it goes on. -/
theorem atBoundary_iff_bytesOf {text : Text} :
    atBoundary text = true ↔ ∀ b ∈ (bytesOf text).head?, continuesWord b = false := by
  cases text with
  | nil => exact ⟨fun _ => nofun, fun _ => rfl⟩
  | cons c cs =>
    -- the byte may be the first of several, which pass no test for ASCII either
    obtain ⟨b, bs, hb, htest, -⟩ := exists_bytesOf_cons c cs
    have hbyte : continuesWord b = (c.isLower || c.isDigit) := by
      rw [continuesWord_eq, htest _ isAscii_isLower, htest _ isAscii_isDigit]
    rw [hb, List.head?_cons, atBoundary, ← hbyte]
    simp

theorem leads_iff_bytesOf {word text : Text} :
    Leads word text ↔ ∃ after, bytesOf text = bytesOf word ++ after ∧
      ∀ b ∈ after.head?, continuesWord b = false := by
  constructor
  · rintro ⟨rest, rfl, hb⟩
    exact ⟨bytesOf rest, bytesOf_append word rest, atBoundary_iff_bytesOf.mp hb⟩
  · rintro ⟨after, h, hb⟩
    obtain ⟨rest, rfl, rfl⟩ := bytesOf_eq_append_iff.mp h
    exact ⟨rest, rfl, atBoundary_iff_bytesOf.mpr hb⟩

/-! ## Entries of the table -/

namespace Keyword

/-- The keyword is of a category asked for, and the text begins with it and goes on, if it does,
with a byte that ends a camel-case word. -/
structure Applies (accepts : Category → Bool) (text : Text) (k : Keyword) : Prop where
  accepted : accepts k.kind.category = true
  leads : ∃ after, bytesOf text = bytesOf k.text ++ after ∧
    ∀ b ∈ after.head?, continuesWord b = false

variable {accepts : Category → Bool} {text : Text} {k l : Keyword}

theorem applies_iff_leads :
    k.Applies accepts text ↔ accepts k.kind.category = true ∧ Leads k.text text := by
  rw [leads_iff_bytesOf]
  exact ⟨fun h => ⟨h.accepted, h.leads⟩, fun h => ⟨h.1, h.2⟩⟩

/-- **A keyword fits** exactly if it applies. -/
theorem fits_iff_applies : k.fits accepts text = true ↔ k.Applies accepts text := by
  rw [fits_iff, applies_iff_leads]

theorem nodup_table : table.Nodup := nodup_texts.of_map

theorem byteLength_text (hk : k ∈ table) : byteLength k.text = k.text.length := by
  have h : ∀ k ∈ table, byteLength k.text = k.text.length := by decide
  exact h k hk

theorem Applies.byteLength_lt (h : k.Applies accepts text) (h' : l.Applies accepts text)
    (hk : k ∈ table) (hl : l ∈ table) (hne : l ≠ k) (hle : l.text.length ≤ k.text.length) :
    byteLength l.text < byteLength k.text := by
  have hlead := (applies_iff_leads.mp h).2
  have hlead' := (applies_iff_leads.mp h').2
  rw [byteLength_text hl, byteLength_text hk]
  apply lt_of_le_of_ne hle
  intro hlen
  exact hne (eq_of_leads hl hk hlead' hlead hlen)

end Keyword

/-! ## The keyword that is found -/

/-- **The keyword that is found**, whatever categories are asked for and whatever the text: it is
the entry of the table that applies and is longer than every other one that does, and nothing is
found exactly if no entry applies. -/
theorem longestKeyword?_eq_iff_applies (accepts : Category → Bool) (text : Text) :
    (∀ k, longestKeyword? accepts text = some k ↔
      k ∈ Keyword.table ∧ k.Applies accepts text ∧
        ∀ l ∈ Keyword.table.erase k, l.Applies accepts text →
          byteLength l.text < byteLength k.text) ∧
    (longestKeyword? accepts text = none ↔ ∀ k ∈ Keyword.table, ¬ k.Applies accepts text) := by
  refine ⟨fun k => ⟨fun h => ?_, ?_⟩, ?_⟩
  · obtain ⟨hk, ha, hlead, hmax⟩ := longestKeyword?_eq_some_iff.mp h
    have happ : k.Applies accepts text := Keyword.applies_iff_leads.mpr ⟨ha, hlead⟩
    refine ⟨hk, happ, fun l hl happ' => ?_⟩
    obtain ⟨hne, hmem⟩ := Keyword.nodup_table.mem_erase_iff.mp hl
    obtain ⟨ha', hlead'⟩ := Keyword.applies_iff_leads.mp happ'
    exact happ.byteLength_lt happ' hk hmem hne (hmax l hmem ha' hlead')
  · rintro ⟨hk, happ, hmax⟩
    obtain ⟨ha, hlead⟩ := Keyword.applies_iff_leads.mp happ
    refine longestKeyword?_eq_some_iff.mpr ⟨hk, ha, hlead, fun l hl ha' hlead' => ?_⟩
    rcases eq_or_ne l k with rfl | hne
    · exact le_rfl
    · have hlt := hmax l (Keyword.nodup_table.mem_erase_iff.mpr ⟨hne, hl⟩)
        (Keyword.applies_iff_leads.mpr ⟨ha', hlead'⟩)
      rw [Keyword.byteLength_text hl, Keyword.byteLength_text hk] at hlt
      exact hlt.le
  · rw [longestKeyword?, List.find?_eq_none]
    simp only [Keyword.fits_iff_applies]

-- the longer keyword begins the text as well, but there a word goes on behind it
example : longestKeyword? (fun _ => true) "GreaterThanEquality".toList =
    some (.ofOperator .greaterThan) := by decide +kernel

end DerivedQuery
