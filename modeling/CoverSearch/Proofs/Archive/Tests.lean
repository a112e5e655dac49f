import CoverSearch.Proofs.Archive.History

/-!
# The tests of an archive

The tests are the entries of an archive, equal ones once. What is left out is equal to what is kept, so if equal
individuals cover the same objectives and have the same size, every covered objective keeps one of its shortest covers.

* `Archive.keepNew` : one more entry; `Archive.tests_eq` : the tests are the entries kept in turn;
* `Archive.slots_update_empty`, `Archive.coveredTargets_update_empty` : the slots after a history;
* `Archive.IsSuite` : the tests that a history asks for; `Archive.isSuite_tests` : an archive has them.
-/

namespace CoverSearch.Archive

variable {C : Type} [Chromosome C] {objectives : List (Objective C)} {executed kept entries : List C} {o : Objective C}
  {c d : C} {i : Nat}

/-! ## Equal entries once -/

/-- An entry is kept unless an equal one is. -/
def keepNew (kept : List C) (c : C) : List C := if kept.contains c then kept else kept ++ [c]

theorem tests_eq (a : Archive C) : a.tests = (a.slots.filterMap (·.entry)).foldl keepNew [] := rfl

theorem mem_keepNew (hc : c ∈ keepNew kept d) : c ∈ kept ∨ c = d := by
  unfold keepNew at hc
  split at hc
  · exact Or.inl hc
  · simpa using hc

theorem mem_keepNew_of_mem (hc : c ∈ kept) : c ∈ keepNew kept d := by
  unfold keepNew
  split
  · exact hc
  · exact List.mem_append_left _ hc

theorem exists_mem_keepNew (kept : List C) (c : C) : ∃ d ∈ keepNew kept c, d = c ∨ (c == d) = true := by
  unfold keepNew
  split <;> rename_i h
  · obtain ⟨d, hd, heq⟩ := List.contains_iff_exists_mem_beq.1 h
    exact ⟨d, hd, Or.inr heq⟩
  · exact ⟨c, List.mem_append_right _ (List.mem_singleton_self c), Or.inl rfl⟩

/-- Neither of two individuals is equal to the other. -/
def Differ (c d : C) : Prop := (c == d) = false ∧ (d == c) = false

theorem pairwise_keepNew [PartialEquivBEq C] (h : kept.Pairwise Differ) (c : C) : (keepNew kept c).Pairwise Differ := by
  unfold keepNew
  split <;> rename_i hnew
  · exact h
  · rw [List.pairwise_append]
    refine ⟨h, List.pairwise_singleton _ _, fun d hd e he => ?_⟩
    rw [List.mem_singleton.1 he]
    have hne : (c == d) = false :=
      Bool.eq_false_iff.2 fun heq => hnew (List.contains_iff_exists_mem_beq.2 ⟨d, hd, heq⟩)
    exact ⟨BEq.comm.trans hne, hne⟩

theorem mem_foldl_keepNew (hc : c ∈ entries.foldl keepNew kept) : c ∈ kept ∨ c ∈ entries := by
  induction entries generalizing kept with
  | nil => exact Or.inl hc
  | cons e entries ih =>
    rcases ih hc with hc | hc
    · rcases mem_keepNew hc with hc | rfl
      · exact Or.inl hc
      · exact Or.inr List.mem_cons_self
    · exact Or.inr (List.mem_cons_of_mem e hc)

theorem mem_foldl_keepNew_of_mem (entries : List C) (hc : c ∈ kept) : c ∈ entries.foldl keepNew kept := by
  induction entries generalizing kept with
  | nil => exact hc
  | cons e entries ih => exact ih (mem_keepNew_of_mem hc)

/-- Every entry is kept, or one that it is equal to. -/
theorem exists_mem_foldl_keepNew (kept : List C) (hc : c ∈ entries) :
    ∃ d ∈ entries.foldl keepNew kept, d = c ∨ (c == d) = true := by
  induction entries generalizing kept with
  | nil => exact absurd hc List.not_mem_nil
  | cons e entries ih =>
    rcases List.mem_cons.1 hc with rfl | hc
    · obtain ⟨d, hd, heq⟩ := exists_mem_keepNew kept c
      exact ⟨d, mem_foldl_keepNew_of_mem entries hd, heq⟩
    · exact ih (keepNew kept e) hc

theorem pairwise_foldl_keepNew [PartialEquivBEq C] (h : kept.Pairwise Differ) (entries : List C) :
    (entries.foldl keepNew kept).Pairwise Differ := by
  induction entries generalizing kept with
  | nil => exact h
  | cons e entries ih => exact ih (pairwise_keepNew h e)

theorem length_keepNew_le (kept : List C) (c : C) : (keepNew kept c).length ≤ kept.length + 1 := by
  unfold keepNew
  split
  · omega
  · simp

theorem length_foldl_keepNew_le (kept entries : List C) :
    (entries.foldl keepNew kept).length ≤ kept.length + entries.length := by
  induction entries generalizing kept with
  | nil => simp
  | cons c entries ih =>
    have hone := length_keepNew_le kept c
    have hrest := ih (keepNew kept c)
    rw [List.foldl_cons, List.length_cons]
    omega

/-- Every test stands for an objective of its own. -/
theorem size_le_coveredTargets (a : Archive C) : a.size ≤ a.coveredTargets := by
  have hlength := length_foldl_keepNew_le [] (a.slots.filterMap (·.entry))
  have hcovered : (a.slots.filterMap (·.entry)).length = a.coveredTargets := by
    rw [List.length_filterMap_eq_countP]
    rfl
  rw [hcovered, List.length_nil, Nat.zero_add] at hlength
  unfold size
  rwa [tests_eq]

/-! ## The archive of a history -/

theorem slots_update_empty (objectives : List (Objective C)) (executed : List C) :
    ((empty objectives).update executed).slots =
      objectives.map fun o => executed.foldl Slot.offer { objective := o } := by
  rw [slots_update, empty, List.map_map]
  rfl

theorem entry?_update_empty (executed : List C) (ho : objectives[i]? = some o) :
    entry? ((empty objectives).update executed) i = .ok (executed.foldl Slot.offer { objective := o }).entry := by
  unfold entry?
  rw [slots_update_empty, List.getElem?_map, ho]
  rfl

/-- A test is an entry. -/
theorem exists_entry_of_mem_tests (hc : c ∈ ((empty objectives).update executed).tests) :
    ∃ i o, objectives[i]? = some o ∧ entry? ((empty objectives).update executed) i = .ok (some c) ∧
      IsLastShortest o executed c := by
  rw [tests_eq, slots_update_empty] at hc
  have hc := (mem_foldl_keepNew hc).resolve_left List.not_mem_nil
  obtain ⟨slot, hslot, hentry⟩ := List.mem_filterMap.1 hc
  obtain ⟨o, ho, rfl⟩ := List.mem_map.1 hslot
  obtain ⟨i, hi⟩ := List.mem_iff_getElem?.1 ho
  refine ⟨i, o, hi, ?_, (Slot.summarizes_foldl o executed).entry_isLastShortest c hentry⟩
  rw [entry?_update_empty executed hi, hentry]

/-- A covered objective has an entry, which is a test or equal to one. -/
theorem exists_test_of_covered (ho : o ∈ objectives) (hcovered : ∃ c ∈ executed, (o.fitness c == 0) = true) :
    ∃ c, IsLastShortest o executed c ∧ ∃ d ∈ ((empty objectives).update executed).tests, d = c ∨ (c == d) = true := by
  have hslot := Slot.summarizes_foldl o executed
  obtain ⟨c, hc⟩ := Option.isSome_iff_exists.1 (hslot.isSome_entry.2 hcovered)
  refine ⟨c, hslot.entry_isLastShortest c hc, ?_⟩
  rw [tests_eq, slots_update_empty]
  exact exists_mem_foldl_keepNew [] (List.mem_filterMap.2 ⟨_, List.mem_map_of_mem ho, hc⟩)

theorem coveredTargets_update_empty (objectives : List (Objective C)) (executed : List C) :
    ((empty objectives).update executed).coveredTargets =
      objectives.countP fun o => executed.any fun c => o.fitness c == 0 := by
  rw [coveredTargets, slots_update_empty, List.countP_map]
  refine List.countP_congr fun o _ => ?_
  rw [Function.comp_apply, Slot.isCovered, (Slot.summarizes_foldl o executed).isSome_entry, List.any_eq_true]

/-! ## The tests of a history -/

/-- Equal individuals have the same size and cover the same objectives. -/
structure RespectsEq (objectives : List (Objective C)) : Prop where
  size_eq : ∀ c d : C, (c == d) = true → Chromosome.size c = Chromosome.size d
  covers_eq : ∀ c d : C, (c == d) = true → ∀ o ∈ objectives, (o.fitness c == 0) = (o.fitness d == 0)

theorem RespectsEq.exists_shortest_test (hequal : RespectsEq objectives) (ho : o ∈ objectives)
    (hcovered : ∃ c ∈ executed, (o.fitness c == 0) = true) :
    ∃ c ∈ ((empty objectives).update executed).tests, (o.fitness c == 0) = true ∧
      ∀ d ∈ executed, (o.fitness d == 0) = true → Chromosome.size c ≤ Chromosome.size d := by
  obtain ⟨c, hc, d, hd, rfl | heq⟩ := exists_test_of_covered ho hcovered
  · exact ⟨d, hd, hc.covers, fun e he => hc.size_le he⟩
  · -- the entry is left out for an equal individual
    refine ⟨d, hd, hequal.covers_eq c d heq o ho ▸ hc.covers, fun e he hcover => ?_⟩
    exact hequal.size_eq c d heq ▸ hc.size_le he hcover

theorem mem_of_mem_tests (hc : c ∈ ((empty objectives).update executed).tests) : c ∈ executed := by
  obtain ⟨i, o, -, -, hlast⟩ := exists_entry_of_mem_tests hc
  exact hlast.mem

/-- Tests for the objectives that some of the executed individuals cover. -/
structure IsSuite (objectives : List (Objective C)) (executed tests : List C) : Prop where
  /-- There is a test for an objective if any individual has covered it. -/
  exists_test_iff : ∀ o ∈ objectives,
    (∃ c ∈ tests, (o.fitness c == 0) = true) ↔ ∃ c ∈ executed, (o.fitness c == 0) = true
  /-- Then there is a test of the least size among all that have covered it. -/
  exists_shortest : ∀ o ∈ objectives, (∃ c ∈ executed, (o.fitness c == 0) = true) →
    ∃ c ∈ tests, (o.fitness c == 0) = true ∧
      ∀ d ∈ executed, (o.fitness d == 0) = true → Chromosome.size c ≤ Chromosome.size d
  pairwise_differ : tests.Pairwise Differ
  /-- A test is one of the individuals, and what the archive stores for an objective that it covers. -/
  exists_entry : ∀ c ∈ tests, c ∈ executed ∧ ∃ i o, objectives[i]? = some o ∧
    entry? ((empty objectives).update executed) i = .ok (some c) ∧ (o.fitness c == 0) = true

theorem isSuite_tests [PartialEquivBEq C] (hequal : RespectsEq objectives) (executed : List C) :
    IsSuite objectives executed ((empty objectives).update executed).tests := by
  have hentries : ∀ c ∈ ((empty objectives).update executed).tests, c ∈ executed ∧ ∃ i o, objectives[i]? = some o ∧
      entry? ((empty objectives).update executed) i = .ok (some c) ∧ (o.fitness c == 0) = true := by
    intro c hc
    obtain ⟨i, o, ho, hentry, hlast⟩ := exists_entry_of_mem_tests hc
    exact ⟨hlast.mem, i, o, ho, hentry, hlast.covers⟩
  refine ⟨fun o ho => ⟨?_, fun hcovered => ?_⟩, fun o => hequal.exists_shortest_test, ?_, hentries⟩
  · rintro ⟨c, hc, hcover⟩
    exact ⟨c, (hentries c hc).1, hcover⟩
  · obtain ⟨c, hc, hcover, -⟩ := hequal.exists_shortest_test ho hcovered
    exact ⟨c, hc, hcover⟩
  · exact pairwise_foldl_keepNew .nil _

end CoverSearch.Archive
