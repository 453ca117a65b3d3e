import DerivedQuery.Proofs.Transcript

/-!
# Names as bytes

A scanner that counts bytes may slice a name only where characters begin or end, and may read only
bytes that are there. Here both are partial.

* `bytesOf`: the UTF-8 form;
* `slice?`, **`isSome_slice?_iff`**: the text between two bytes, if both lie between characters;
* `exists_bytesOf_cons`: the byte at which a character begins, to a test that only ASCII characters
  pass, is that character;
* `bytesOf_eq_append_iff`: a text begins with a word where its bytes begin with those of the word.
-/

namespace DerivedQuery

/-- The bytes of the UTF-8 form. -/
def bytesOf (t : Text) : List UInt8 := t.flatMap String.utf8EncodeChar

/-- The text before a byte and the text from it on, unless the byte lies within a character or
behind the end. -/
def splitBytes? : Text → Nat → Option (Text × Text)
  | t, 0 => some ([], t)
  | [], _ + 1 => none
  | c :: cs, n + 1 =>
    if c.utf8Size ≤ n + 1 then
      (splitBytes? cs (n + 1 - c.utf8Size)).map fun (before, after) => (c :: before, after)
    else none

/-- The text from the first byte up to the second one. -/
def slice? (t : Text) (start stop : Nat) : Option Text := do
  let (_, rest) ← splitBytes? t start
  if start ≤ stop then
    let (between, _) ← splitBytes? rest (stop - start)
    return between
  else none

/-- A character begins at the byte, or the text ends before it. -/
def IsBoundary (t : Text) (n : Nat) : Prop :=
  ∃ before after, t = before ++ after ∧ byteLength before = n

/-! ## Slices -/

section Slices

variable {t u v before after : Text} {n start stop : Nat}

theorem splitBytes?_append (u v : Text) : splitBytes? (u ++ v) (byteLength u) = some (u, v) := by
  induction u with
  | nil => simp [splitBytes?]
  | cons c cs ih =>
    have hpos := c.utf8Size_pos
    obtain ⟨k, hk⟩ : ∃ k, c.utf8Size + byteLength cs = k + 1 :=
      Nat.exists_eq_succ_of_ne_zero (by omega)
    have hrest : k + 1 - c.utf8Size = byteLength cs := by omega
    rw [List.cons_append, byteLength_cons, hk, splitBytes?, if_pos (by omega), hrest, ih]
    rfl

theorem splitBytes?_eq_some_iff :
    splitBytes? t n = some (u, v) ↔ t = u ++ v ∧ byteLength u = n := by
  constructor
  · intro h
    fun_induction splitBytes? t n generalizing u v with
    | case1 =>
      cases h
      exact ⟨rfl, rfl⟩
    | case2 => cases h
    | case3 c cs n hn ih =>
      obtain ⟨⟨u', v'⟩, hs, he⟩ := Option.map_eq_some_iff.mp h
      cases he
      obtain ⟨rfl, hu⟩ := ih hs
      exact ⟨rfl, by rw [byteLength_cons, hu]; omega⟩
    | case4 => cases h
  · rintro ⟨rfl, rfl⟩
    exact splitBytes?_append u v

theorem slice?_append (before u after : Text) : slice? (before ++ (u ++ after)) (byteLength before)
    (byteLength before + byteLength u) = some u := by
  simp [slice?, splitBytes?_append]

theorem slice?_eq_some_iff : slice? t start stop = some u ↔ ∃ before after,
    t = before ++ (u ++ after) ∧ byteLength before = start ∧ start + byteLength u = stop := by
  constructor
  · intro h
    obtain ⟨⟨before, rest⟩, hs, hrest⟩ := Option.bind_eq_some_iff.mp h
    obtain ⟨rfl, hb⟩ := splitBytes?_eq_some_iff.mp hs
    dsimp only at hrest
    split at hrest
    · next hle =>
      obtain ⟨⟨v, after⟩, hs', hv⟩ := Option.bind_eq_some_iff.mp hrest
      obtain ⟨rfl, hn⟩ := splitBytes?_eq_some_iff.mp hs'
      obtain rfl : v = u := Option.some.inj hv
      exact ⟨before, after, rfl, hb, by omega⟩
    · cases hrest
  · rintro ⟨before, after, rfl, rfl, rfl⟩
    exact slice?_append before u after

/-- **What a slice needs**: its ends are in order, within the text, and between characters. -/
theorem isSome_slice?_iff : (slice? t start stop).isSome = true ↔
    start ≤ stop ∧ stop ≤ byteLength t ∧ IsBoundary t start ∧ IsBoundary t stop := by
  rw [Option.isSome_iff_exists]
  constructor
  · rintro ⟨u, h⟩
    obtain ⟨before, after, rfl, rfl, rfl⟩ := slice?_eq_some_iff.mp h
    refine ⟨by omega, by simp only [byteLength_append]; omega, ⟨before, u ++ after, rfl, rfl⟩, ?_⟩
    exact ⟨before ++ u, after, by rw [List.append_assoc], byteLength_append _ _⟩
  · rintro ⟨hle, -, ⟨before, rest, rfl, rfl⟩, ⟨before', after, he, rfl⟩⟩
    rcases List.append_eq_append_iff.mp he with ⟨u, rfl, rfl⟩ | ⟨u, rfl, rfl⟩
    · exact ⟨u, slice?_eq_some_iff.mpr ⟨before, after, rfl, rfl, (byteLength_append _ _).symm⟩⟩
    · -- the second end is not before the first one, so nothing lies between them
      obtain rfl : u = [] := by
        have := length_le_byteLength u
        rw [byteLength_append] at hle
        exact List.length_eq_zero_iff.mp (by omega)
      exact ⟨[], slice?_eq_some_iff.mpr ⟨before', rest, by simp, by simp, by simp⟩⟩

example : slice? "é1".toList 0 2 = some ['é'] ∧ slice? "é1".toList 1 3 = none := by decide

end Slices

/-! ## Bytes of characters -/

/-- Only ASCII characters pass the test. -/
def IsAscii (test : Char → Bool) : Prop := ∀ c, test c = true → c.toNat < 128

theorem isAscii_isAlphanum : IsAscii Char.isAlphanum := by
  intro c h
  have hc : c.toNat = c.val.toNat := rfl
  simp only [Char.isAlphanum, Char.isAlpha, Char.isUpper, Char.isLower, Char.isDigit,
    Bool.or_eq_true, Bool.and_eq_true, decide_eq_true_eq, UInt32.le_iff_toNat_le, ge_iff_le] at h
  have hZ : 'Z'.val.toNat = 90 := rfl
  have hz : 'z'.val.toNat = 122 := rfl
  have h9 : '9'.val.toNat = 57 := rfl
  omega

theorem isAscii_isAlpha : IsAscii Char.isAlpha :=
  fun c h => isAscii_isAlphanum c (by simp [Char.isAlphanum, h])

theorem isAscii_isUpper : IsAscii Char.isUpper :=
  fun c h => isAscii_isAlpha c (by simp [Char.isAlpha, h])

theorem isAscii_isLower : IsAscii Char.isLower :=
  fun c h => isAscii_isAlpha c (by simp [Char.isAlpha, h])

theorem isAscii_isDigit : IsAscii Char.isDigit :=
  fun c h => isAscii_isAlphanum c (by simp [Char.isAlphanum, h])

theorem isAscii_separator : IsAscii (· == separator) := by
  intro c h
  rw [beq_iff_eq.mp h]
  decide

theorem isAscii_isNameChar : IsAscii isNameChar := by
  intro c h
  rcases Bool.or_eq_true _ _ ▸ h with h | h
  · exact isAscii_isAlphanum c h
  · exact isAscii_separator c h

theorem length_bytesOf (t : Text) : (bytesOf t).length = byteLength t := by
  induction t with
  | nil => rfl
  | cons c cs ih =>
    rw [byteLength_cons, ← ih, ← String.length_utf8EncodeChar, ← List.length_append]
    rfl

theorem bytesOf_cons (c : Char) (cs : Text) :
    bytesOf (c :: cs) = String.utf8EncodeChar c ++ bytesOf cs := List.flatMap_cons

theorem bytesOf_append (u v : Text) : bytesOf (u ++ v) = bytesOf u ++ bytesOf v :=
  List.flatMap_append

/-- A character that is not ASCII has no ASCII byte. -/
theorem le_of_mem_utf8EncodeChar {c : Char} (h : 128 ≤ c.toNat) :
    ∀ b ∈ String.utf8EncodeChar c, 128 ≤ b.toNat := by
  have hv : c.val.toNat = c.toNat := rfl
  have hbyte : ∀ k n : Nat, 128 ≤ n → n + k < 256 → 128 ≤ (UInt8.ofNat (k + n)).toNat := by
    intro k n hn hlt
    rw [UInt8.toNat_ofNat']
    omega
  intro b hb
  simp only [String.utf8EncodeChar, hv] at hb
  split_ifs at hb
  · omega
  all_goals
    simp only [List.mem_cons, List.not_mem_nil, or_false] at hb
    rcases hb with rfl | hb
    · exact hbyte _ _ (by decide) (by omega)
  · exact hb ▸ hbyte _ _ (by decide) (by omega)
  · rcases hb with rfl | rfl <;> exact hbyte _ _ (by decide) (by omega)
  · rcases hb with rfl | rfl | rfl <;> exact hbyte _ _ (by decide) (by omega)

theorem exists_utf8EncodeChar_eq {c : Char} (h : c.toNat < 128) :
    c.utf8Size = 1 ∧ ∃ b, String.utf8EncodeChar c = [b] ∧ b.toChar = c := by
  have hv : c.val.toNat = c.toNat := rfl
  have hsize : c.utf8Size = 1 :=
    Char.utf8Size_eq_one_iff.mpr (UInt32.le_iff_toNat_le.mpr (Nat.le_of_lt_succ h))
  refine ⟨hsize, c.val.toUInt8, String.utf8EncodeChar_eq_singleton hsize, Char.ext ?_⟩
  apply UInt32.toNat_inj.mp
  show (c.val.toUInt8.toUInt32).toNat = c.val.toNat
  rw [UInt8.toNat_toUInt32, UInt32.toNat_toUInt8]
  omega

theorem IsAscii.test_toChar {test : Char → Bool} (ht : IsAscii test) {c : Char} {b : UInt8}
    (hb : b ∈ String.utf8EncodeChar c) : test b.toChar = test c := by
  by_cases h : c.toNat < 128
  · obtain ⟨-, b', he, hc⟩ := exists_utf8EncodeChar_eq h
    rw [he, List.mem_singleton] at hb
    rw [hb, hc]
  · have hle : 128 ≤ b.toChar.toNat := by
      have := le_of_mem_utf8EncodeChar (by omega) b hb
      simpa [UInt8.toChar, Char.toNat] using this
    have hfalse : ∀ d : Char, 128 ≤ d.toNat → test d = false := fun d hd =>
      Bool.eq_false_iff.mpr fun h' => by have := ht d h'; omega
    rw [hfalse _ hle, hfalse c (by omega)]

/-- **The byte at which a character begins** passes the tests that the character passes; if the
character is ASCII, the next byte begins the next one. -/
theorem exists_bytesOf_cons (c : Char) (cs : Text) :
    ∃ b bs, bytesOf (c :: cs) = b :: bs ∧ (∀ test, IsAscii test → test b.toChar = test c) ∧
      (c.toNat < 128 → c.utf8Size = 1 ∧ bs = bytesOf cs) := by
  obtain ⟨b, bs, hb⟩ : ∃ b bs, String.utf8EncodeChar c = b :: bs := by
    refine List.exists_cons_of_ne_nil (List.ne_nil_of_length_pos ?_)
    rw [String.length_utf8EncodeChar]
    exact c.utf8Size_pos
  refine ⟨b, bs ++ bytesOf cs, by rw [bytesOf_cons, hb]; rfl, fun test ht => ?_, fun h => ?_⟩
  · exact ht.test_toChar (hb ▸ List.mem_cons_self ..)
  · obtain ⟨hsize, b', he, -⟩ := exists_utf8EncodeChar_eq h
    rw [he, List.cons.injEq] at hb
    exact ⟨hsize, by rw [← hb.2]; rfl⟩

/-- **The byte before a position** passes the tests that the character before it passes. -/
theorem exists_getElem?_bytesOf {before : Text} {c : Char} (h : before.getLast? = some c)
    (after : Text) : ∃ b, (bytesOf (before ++ after))[byteLength before - 1]? = some b ∧
      ∀ test, IsAscii test → test b.toChar = test c := by
  obtain ⟨u, rfl⟩ := List.getLast?_eq_some_iff.mp h
  have hpos := c.utf8Size_pos
  have hlen := String.length_utf8EncodeChar c
  have hbytes : bytesOf (u ++ [c] ++ after) =
      bytesOf u ++ (String.utf8EncodeChar c ++ bytesOf after) := by
    rw [List.append_assoc, bytesOf_append]
    rfl
  have hindex : byteLength (u ++ [c]) - 1 - (bytesOf u).length = c.utf8Size - 1 := by
    rw [length_bytesOf, byteLength_append]
    simp only [byteLength_cons, byteLength_nil]
    omega
  have hlt : c.utf8Size - 1 < (String.utf8EncodeChar c).length := by omega
  refine ⟨_, ?_, fun test ht => ht.test_toChar (List.getElem_mem hlt)⟩
  rw [hbytes, List.getElem?_append_right, hindex, List.getElem?_append_left hlt,
    List.getElem?_eq_getElem hlt]
  rw [length_bytesOf, byteLength_append]
  simp only [byteLength_cons, byteLength_nil]
  omega

/-! ## Bytes of words -/

/-- No character has the bytes with which another one begins. -/
theorem eq_of_utf8EncodeChar_append_eq {c d : Char} {u v : List UInt8}
    (h : String.utf8EncodeChar c ++ u = String.utf8EncodeChar d ++ v) : c = d := by
  have hdecode : ∀ (c : Char) (u : List UInt8),
      (String.utf8EncodeChar c ++ u).toByteArray.utf8DecodeChar? 0 = some c := by
    intro c u
    rw [List.toByteArray_append]
    exact ByteArray.utf8DecodeChar?_utf8EncodeChar_append
  apply Option.some.inj
  rw [← hdecode c u, h, hdecode d v]

/-- **A text begins with a word** where its bytes begin with those of the word, and the bytes behind
are those of the rest. -/
theorem bytesOf_eq_append_iff {t word : Text} {after : List UInt8} :
    bytesOf t = bytesOf word ++ after ↔ ∃ rest, t = word ++ rest ∧ after = bytesOf rest := by
  constructor
  · intro h
    induction word generalizing t with
    | nil => exact ⟨t, rfl, h.symm⟩
    | cons c cs ih =>
      rw [bytesOf_cons, List.append_assoc] at h
      cases t with
      | nil =>
        have hempty := (List.append_eq_nil_iff.mp h.symm).1
        have hpos := c.utf8Size_pos
        rw [← String.length_utf8EncodeChar, hempty] at hpos
        exact absurd hpos (Nat.lt_irrefl 0)
      | cons d ds =>
        rw [bytesOf_cons] at h
        obtain rfl := eq_of_utf8EncodeChar_append_eq h
        obtain ⟨rest, rfl, hrest⟩ := ih (List.append_cancel_left h)
        exact ⟨rest, rfl, hrest⟩
  · rintro ⟨rest, rfl, rfl⟩
    exact bytesOf_append word rest

end DerivedQuery
