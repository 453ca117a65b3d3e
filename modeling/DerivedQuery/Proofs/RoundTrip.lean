import DerivedQuery.Proofs.Reading
import DerivedQuery.Proofs.Writing

/-!
# Names and queries

The query of a name has a name of its own, which stands for it again. The queries of which this
holds are told by their parts: by the spelling of their segments, and by the keywords that a scan
would find in them.

* `parse_canonical_iff`: the queries that the names written for them stand for;
* **`parse_canonical_of_parse`**: they are the queries of names;
* `Query.WellFormed`, `Query.KeywordFree`, `Query.StartsClear`: what is asked of their parts;
* **`parse_canonical_iff_startsClear`**: it is what has to be asked;
* **`wellFormed_of_parse`**: the query of a name is well formed.
-/

namespace DerivedQuery

variable {settings : Settings} {q : Query} {name : Text}

/-! ## The queries of names -/

theorem parse_canonical_iff : parse settings q.canonical = .ok q ↔ q.Renderable settings :=
  ⟨renderable_of_parse, parse_canonical_of_renderable⟩

/-- **The query of a name** is the query of the name that is written for it, whether or not order
items may have a separator between them. -/
theorem parse_canonical_of_parse (h : parse settings name = .ok q) :
    parse settings q.canonical = .ok q ∧
      ∀ b, parse { settings with separatedOrderItems := b } q.canonical = .ok q := by
  have hq := renderable_of_parse h
  exact ⟨parse_canonical_iff.mpr hq, fun b => parse_canonical_iff.mpr (hq.of_separatedOrderItems b)⟩

theorem parse_canonical_ordersFindByName :
    ∃ q : Query, parse {} "ordersFindByNameIgnoreCaseNotAndOrder_idEqualOrderByAgeAsc_Zip".toList =
        .ok q ∧
      q.canonical = "findByNameNotIgnoreCaseEqualAndOrder_IdOrderByAgeAscZipAsc".toList ∧
      parse {} q.canonical = .ok q ∧
      ∀ b, parse { separatedOrderItems := b } q.canonical = .ok q := by
  have h : parse {} "ordersFindByNameIgnoreCaseNotAndOrder_idEqualOrderByAgeAsc_Zip".toList = .ok
      { action := .find
        criteria :=
          [⟨none, { property := ⟨["name".toList], by decide, by decide⟩
                    negated := true, ignoreCase := true }⟩,
            ⟨some .and, { property := ⟨["order".toList, "id".toList], by decide, by decide⟩ }⟩]
        ordering :=
          [{ property := ⟨["age".toList], by decide, by decide⟩ },
            { property := ⟨["zip".toList], by decide, by decide⟩ }] } := by decide +kernel
  obtain ⟨hq, hb⟩ := parse_canonical_of_parse h
  exact ⟨_, h, by decide +kernel, hq, hb⟩

/-! ## Queries that are made of words -/

/-- What is asked of a query, whatever its properties are called. -/
structure Query.WellFormed (settings : Settings) (q : Query) : Prop where
  /-- An action on many records has neither a projection nor an order. -/
  bulk : q.isBulk = true → q.projection = none ∧ q.ordering = []
  joined : Joined q.criteria
  worded : ∀ r, q.projection = some r → r.Worded settings ∧ r.NamesPath
  projection : ∀ r p, q.projection = some r → r.property = some p → ∀ s ∈ p.segments, Spelled s
  criteria : ∀ i ∈ q.criteria, ∀ s ∈ i.condition.property.segments, Spelled s
  ordering : ∀ i ∈ q.ordering, ∀ s ∈ i.property.segments, Spelled s

/-- No segment holds a keyword that may follow its path, and none of the projection makes a longer
one of the word By. -/
structure Query.KeywordFree (q : Query) : Prop where
  projection : ∀ r p, q.projection = some r → r.property = some p → ∀ s ∈ p.segments,
    HoldsNoKeyword .projected [] s ∧ ¬ "Order".toList <:+ capitalize s
  criteria : ∀ i ∈ q.criteria, ∀ s ∈ i.condition.property.segments, HoldsNoKeyword .criterion [] s
  ordering : ∀ i ∈ q.ordering, ∀ s ∈ i.property.segments, HoldsNoKeyword .ordered [] s

/-- The path of the projection begins neither with a keyword nor with a limit. -/
def Query.StartsClear (settings : Settings) (q : Query) : Prop :=
  ∀ r p, q.projection = some r → r.property = some p →
    Clear settings (q.action.scopeMode (some r)) p.canonical

theorem Path.canonical_ne_nil (p : Path) : p.canonical ≠ [] :=
  pathText_ne_nil p.segments_ne_nil p.segment_ne_nil

section Criteria

variable {u : Text} {m : Mode} {s : Text}

theorem safe_append_criteria (hu : u ≠ []) (ho : ¬ "Order".toList <:+ u) :
    Safe [] "By".toList u := by
  refine safe_criteria (t := []) rfl hu ?_
  rintro rfl
  exact ho List.suffix_rfl

theorem longestKeyword?_append_criteria {accepts : Category → Bool} (hu : u ≠ [])
    (ho : ¬ "Order".toList <:+ u) (h : longestKeyword? accepts u = none) :
    longestKeyword? accepts (u ++ "By".toList) = none := by
  rw [← List.append_nil u] at h
  exact (safe_append_criteria hu ho).longestKeyword?_eq_none h

theorem limitRun?_append_criteria (hu : u ≠ []) (ho : ¬ "Order".toList <:+ u)
    (h : limitRun? settings u = none) : limitRun? settings (u ++ "By".toList) = none := by
  rw [← List.append_nil u] at h
  refine limitRun?_eq_none_of_safe rfl hu (fun _ hne => absurd rfl hne) (fun w hw he => ?_) h
  exact safe_append_criteria hw fun hs => ho (he ▸ hs.trans (List.suffix_append _ _))

theorem Clear.append_criteria (hu : u ≠ []) (ho : ¬ "Order".toList <:+ u)
    (h : Clear settings m u) : Clear settings m (u ++ "By".toList) :=
  ⟨fun ha => limitRun?_append_criteria hu ho (h.1 ha), longestKeyword?_append_criteria hu ho h.2⟩

theorem HoldsNoKeyword.criteria (ho : ¬ "Order".toList <:+ capitalize s)
    (h : HoldsNoKeyword m [] s) : HoldsNoKeyword m "By".toList s := by
  intro w hw hne
  have hn := h w hw hne
  rw [List.append_nil] at hn
  refine longestKeyword?_append_criteria hne (fun hs => ho ?_) hn
  cases s with
  | nil => exact absurd (List.suffix_nil.mp hw) hne
  | cons c cs => exact (hs.trans hw).trans (List.suffix_cons _ cs)

/-- A word without a separator at the end of a path is at the end of its last segment. -/
theorem suffix_of_suffix_intercalate {ts : List Text} (hu : separator ∉ u) (hne : u ≠ [])
    (h : u <:+ [separator].intercalate ts) : ∃ t ∈ ts, u <:+ t := by
  induction ts with
  | nil => exact absurd (List.suffix_nil.mp h) hne
  | cons t ts ih =>
    cases ts with
    | nil => exact ⟨t, List.mem_singleton_self t, by simpa [List.intercalate] using h⟩
    | cons t' ts =>
      rw [List.intercalate_cons_cons] at h
      rcases List.suffix_or_suffix_of_suffix h (List.suffix_append _ _) with hs | ⟨v, rfl⟩
      · obtain ⟨t'', ht, hs⟩ := ih hs
        exact ⟨t'', List.mem_cons_of_mem t ht, hs⟩
      · rw [List.suffix_append_self_iff, List.suffix_concat_iff] at h
        rcases h with rfl | ⟨v, rfl, -⟩
        · obtain ⟨t'', ht, hs⟩ := ih List.suffix_rfl
          exact ⟨t'', List.mem_cons_of_mem t ht, hs⟩
        · exact absurd (by simp) hu

end Criteria

/-! ## The names of queries that are made of words -/

theorem Query.WellFormed.renderable (hw : q.WellFormed settings) (hk : q.KeywordFree)
    (hc : q.StartsClear settings) : q.Renderable settings where
  bulk := hw.bulk
  joined := hw.joined
  criteria i hi s hs := ⟨hw.criteria i hi s hs, hk.criteria i hi s hs⟩
  ordering i hi s hs := ⟨hw.ordering i hi s hs, hk.ordering i hi s hs⟩
  projection r hr := by
    obtain ⟨hworded, hnames⟩ := hw.worded r hr
    refine ⟨hworded, hnames, fun p hp => ⟨fun s hs => ?_, fun s hs => ?_, ?_⟩⟩
    · exact ⟨hw.projection r p hr hp s hs, (hk.projection r p hr hp s hs).1⟩
    · obtain ⟨hno, ho⟩ := hk.projection r p hr hp s (List.mem_of_getLast? hs)
      unfold Query.afterScope
      split
      · exact hno
      · exact hno.criteria ho
    · have hclear := hc r p hr hp
      unfold Query.afterScope
      split
      · rwa [List.append_nil]
      · refine hclear.append_criteria p.canonical_ne_nil fun hs => ?_
        obtain ⟨t, ht, hs⟩ := suffix_of_suffix_intercalate (by decide) (by decide) hs
        obtain ⟨s, hmem, rfl⟩ := List.mem_map.mp ht
        exact (hk.projection r p hr hp s hmem).2 hs

theorem Query.Renderable.startsClear (h : q.Renderable settings) : q.StartsClear settings := by
  intro r p hr hp
  obtain ⟨-, -, hclear⟩ := (h.projection r hr).path p hp
  unfold Query.afterScope at hclear
  split at hclear
  · rwa [List.append_nil] at hclear
  · rw [← List.append_nil p.canonical]
    refine hclear.mono (.of_append [] rfl) p.canonical_ne_nil rfl fun _ hn => ?_
    exact absurd hn (by decide +kernel)

/-- **A query that is made of words** is the query of the name that is written for it, if and only
if the path of its projection does not begin with a keyword or a limit. -/
theorem parse_canonical_iff_startsClear (hw : q.WellFormed settings) (hk : q.KeywordFree) :
    parse settings q.canonical = .ok q ↔ q.StartsClear settings := by
  rw [parse_canonical_iff]
  exact ⟨Query.Renderable.startsClear, hw.renderable hk⟩

theorem parse_canonical_findFirstName :
    ∃ q : Query, q.WellFormed {} ∧ q.KeywordFree ∧
      q.canonical = "findFirstNameByGreaterLessThanOrOrderIdNotGreaterThanOrderByEqualDesc".toList ∧
      parse {} q.canonical = .ok q := by
  let q : Query :=
    { action := .find
      projection := some (.ofProperty ⟨["firstName".toList], by decide, by decide⟩)
      criteria :=
        [⟨none, { property := ⟨["greater".toList], by decide, by decide⟩, operator := .lessThan }⟩,
          ⟨some .or, { property := ⟨["orderId".toList], by decide, by decide⟩
                       operator := .greaterThan, negated := true }⟩]
      ordering := [⟨⟨["equal".toList], by decide, by decide⟩, .desc⟩] }
  have hw : q.WellFormed {} := by
    refine ⟨by simp [q, Query.isBulk, Action.isBulk], by simp [q, Joined], ?_, ?_,
      by decide +kernel, by decide +kernel⟩
    · rintro r ⟨⟩
      exact ⟨⟨rfl, rfl⟩, .inr (.inr (by simp [Projection.ofProperty]))⟩
    · rintro r p ⟨⟩ ⟨⟩
      decide +kernel
  have hk : q.KeywordFree := by
    refine ⟨?_, by decide +kernel, by decide +kernel⟩
    rintro r p ⟨⟩ ⟨⟩
    decide +kernel
  have hc : q.StartsClear {} := by
    rintro r p ⟨⟩ ⟨⟩
    decide +kernel
  exact ⟨q, hw, hk, by decide +kernel, (parse_canonical_iff_startsClear hw hk).mpr hc⟩

/-! ## The queries of names are well formed -/

/-- The paths of a query. -/
def Query.paths (q : Query) : List Path :=
  (q.projection.bind Projection.property).toList ++
    q.criteria.map (fun i => i.condition.property) ++ q.ordering.map OrderItem.property

section WellFormed

variable {r : Projection} {n : Nat} {p : Path} {s : Text}

theorem Query.Renderable.wellFormed (h : q.Renderable settings) : q.WellFormed settings where
  bulk := h.bulk
  joined := h.joined
  worded r hr := ⟨(h.projection r hr).worded, (h.projection r hr).namesPath⟩
  projection r p hr hp s hs := (((h.projection r hr).path p hp).1 s hs).1
  criteria i hi s hs := (h.criteria i hi s hs).1
  ordering i hi s hs := (h.ordering i hi s hs).1

theorem Projection.Worded.count_ne_none_iff (h : r.Worded settings) :
    r.count ≠ none ↔ r.kind = .first := by
  obtain ⟨kind, count, dist, property⟩ := r
  cases kind with
  | first =>
    obtain ⟨n, rfl, -⟩ := h
    exact iff_of_true (Option.some_ne_none n) rfl
  | distinct | max | min | sum | avg | property =>
    obtain ⟨rfl, -⟩ := h
    exact iff_of_false (fun hn => hn rfl) nofun

theorem Projection.Worded.of_count (h : r.Worded settings) (hn : r.count = some n) :
    n < UInt32.size ∧ (1 ≤ n ∨ settings.allowZeroCount = true) := by
  have hk := h.count_ne_none_iff.mp (by simp [hn])
  unfold Worded at h
  rw [hk] at h
  obtain ⟨m, hm, hlt, hz⟩ := h
  obtain rfl := Option.some.inj (hn.symm.trans hm)
  exact ⟨hlt, n.eq_zero_or_pos.symm.imp_right hz⟩

theorem Projection.Worded.distinct (h : r.Worded settings) :
    (r.kind = .distinct → r.distinct = true) ∧
      (r.kind.isAggregate = true ∨ r.kind = .property → r.distinct = false) := by
  obtain ⟨kind, count, dist, property⟩ := r
  cases kind with
  | first => exact ⟨nofun, by simp [ProjectionKind.isAggregate]⟩
  | distinct => exact ⟨fun _ => h.2, by simp [ProjectionKind.isAggregate]⟩
  | max | min | sum | avg | property => exact ⟨nofun, fun _ => h.2⟩

theorem Projection.NamesPath.property_ne_none (h : r.NamesPath)
    (hk : r.kind.isAggregate = true ∨ r.kind = .property) : r.property ≠ none := by
  rcases h with h | h | h
  · rw [h] at hk
    simp [ProjectionKind.isAggregate] at hk
  · rw [h] at hk
    simp [ProjectionKind.isAggregate] at hk
  · exact h

theorem Query.WellFormed.spelled (h : q.WellFormed settings) (hp : p ∈ q.paths)
    (hs : s ∈ p.segments) : Spelled s := by
  simp only [Query.paths, List.mem_append, Option.mem_toList, Option.bind_eq_some_iff,
    List.mem_map] at hp
  rcases hp with (⟨r, hr, hp⟩ | ⟨i, hi, rfl⟩) | ⟨i, hi, rfl⟩
  · exact h.projection r p hr hp s hs
  · exact h.criteria i hi s hs
  · exact h.ordering i hi s hs

/-- **The query of a name is well formed.** An action on many records has neither a projection nor
an order. The first condition is joined to none and every other one to the one before it. A limit
has a number, which is zero only if the settings allow it, and nothing else has one; `Distinct` is
said where it is the kind; aggregates and bare properties have a path and no `Distinct`. Every path
has a segment, and every segment is spelled as segments are. -/
theorem wellFormed_of_parse (h : parse settings name = .ok q) :
    (q.isBulk = true → q.projection = none ∧ q.ordering = []) ∧
      (∀ i is, q.criteria = i :: is →
        i.connective = none ∧ ∀ j ∈ is, ∃ k, j.connective = some k) ∧
      (∀ r, q.projection = some r →
        ((∃ n, r.count = some n) ↔ r.kind = .first) ∧
          (∀ n, r.count = some n → n < UInt32.size ∧ (1 ≤ n ∨ settings.allowZeroCount = true)) ∧
          (r.kind = .distinct → r.distinct = true) ∧
          (r.kind.isAggregate = true ∨ r.kind = .property →
            (∃ p, r.property = some p) ∧ r.distinct = false)) ∧
      ∀ p ∈ q.paths, p.segments ≠ [] ∧ ∀ s ∈ p.segments, Spelled s := by
  have hw := (renderable_of_parse h).wellFormed
  refine ⟨hw.bulk, fun i is hi => ?_, fun r hr => ?_,
    fun p hp => ⟨p.segments_ne_nil, fun s hs => hw.spelled hp hs⟩⟩
  · have hj := hw.joined
    rw [hi] at hj
    exact hj.imp_right fun hj j hmem => Option.ne_none_iff_exists'.mp (hj j hmem)
  · obtain ⟨hworded, hnames⟩ := hw.worded r hr
    obtain ⟨hdistinct, hplain⟩ := hworded.distinct
    refine ⟨?_, fun n hn => hworded.of_count hn, hdistinct, fun hk => ⟨?_, hplain hk⟩⟩
    · rw [← Option.ne_none_iff_exists']
      exact hworded.count_ne_none_iff
    · exact Option.ne_none_iff_exists'.mp (hnames.property_ne_none hk)

theorem wellFormed_findFirst3DistinctNick :
    ∃ q r i j, parse {} "findFirst3DistinctNickByHome_zipInOrIdOrderByAgeDesc".toList = .ok q ∧
      q.projection = some r ∧ r.kind = .first ∧ (∃ n, r.count = some n) ∧
      (∀ n, r.count = some n → n < UInt32.size ∧ 1 ≤ n) ∧
      q.criteria = [i, j] ∧ i.connective = none ∧ (∃ k, j.connective = some k) ∧
      q.paths.length = 4 ∧ ∀ p ∈ q.paths, p.segments ≠ [] ∧ ∀ s ∈ p.segments, Spelled s := by
  have h : parse {} "findFirst3DistinctNickByHome_zipInOrIdOrderByAgeDesc".toList = .ok
      { action := .find
        projection := some { kind := .first, count := some 3, distinct := true
                             property := some ⟨["nick".toList], by decide, by decide⟩ }
        criteria :=
          [⟨none, { property := ⟨["home".toList, "zip".toList], by decide, by decide⟩
                    operator := .isIn }⟩,
            ⟨some .or, { property := ⟨["id".toList], by decide, by decide⟩ }⟩]
        ordering := [⟨⟨["age".toList], by decide, by decide⟩, .desc⟩] } := by decide +kernel
  obtain ⟨-, hcriteria, hprojection, hpaths⟩ := wellFormed_of_parse h
  obtain ⟨hi, hj⟩ := hcriteria _ _ rfl
  obtain ⟨hcount, hlimit, -, -⟩ := hprojection _ rfl
  have hone : ∀ n, some 3 = some n → n < UInt32.size ∧ 1 ≤ n := fun n hn =>
    (hlimit n hn).imp_right fun hz => hz.resolve_right Bool.false_ne_true
  exact ⟨_, _, _, _, h, rfl, rfl, hcount.mpr rfl, hone, rfl, hi, hj _ (by simp), rfl, hpaths⟩

end WellFormed

end DerivedQuery
