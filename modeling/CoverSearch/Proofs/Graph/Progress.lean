import CoverSearch.Proofs.Graph.Levels
import CoverSearch.Proofs.Value.Monotone

/-!
# Progress towards a target

An execution that reached more is no farther from any target. A further target is nothing, or it takes the place of the
nearest one with a level below it, and no distance outweighs a level.

An execution that came closer where it had been before is no farther either, but for the rounding of its distance: two
distances whose quotients are nearly equal may be normalized out of order. The fitness then rises by one part in
`2 ^ 50` at most.

* `Coverage.Extends` : more targets, with the others as they were;
* `BlockObjective.ofNat_le_fitnessAlong`, `BlockObjective.fitnessAlong_le` : one vertex of a path after the other;
* `fitness_le_of_extends` : what reaching more does to fitness and approach level;
* `BlockObjective.fitnessAlong_record` : the fitness when one distance gets smaller;
* `fitness_record_le` : what coming closer does to the fitness.
-/

namespace CoverSearch

variable {o : BlockObjective} {r : Record} {c c' : Coverage} {d y : Float} {t u : Target} {ts : List Target}
  {p q : ℚ} {level : Nat} {covered covered' : Target → Bool}

/-- Every target of a map is in the other one too, with its distance. -/
def Coverage.Extends (c c' : Coverage) : Prop := ∀ t d, c.get? t = some d → c'.get? t = some d

theorem Coverage.Extends.finite (h : c.Extends c') (hc : c'.Finite) : c.Finite := fun t d hd => hc t d (h t d hd)

theorem Coverage.Extends.contains (h : c.Extends c') (ht : c.contains t = true) : c'.contains t = true := by
  obtain ⟨d, hd⟩ := Option.isSome_iff_exists.1 ht
  exact Option.isSome_iff_exists.2 ⟨d, h t d hd⟩

theorem Coverage.extends_record (h : c.get? t = none) (d : Float) : c.Extends (c.record t d) := by
  intro s e hs
  rw [get?_record_of_ne _ c d, hs]
  rintro rfl
  rw [h] at hs
  exact nomatch hs

theorem findIdx_le_of_imp (h : ∀ t, covered t = true → covered' t = true) :
    ts.findIdx covered' ≤ ts.findIdx covered := by
  induction ts with
  | nil => exact Nat.le_refl _
  | cons t ts ih =>
    rw [List.findIdx_cons, List.findIdx_cons]
    rcases ht : covered t with _ | _
    · rcases covered' t with _ | _
      · exact Nat.succ_le_succ ih
      · exact Nat.zero_le _
    · rw [h t ht]
      exact Nat.le_refl 0

namespace BlockObjective
open Double

/-! ## Along a path -/

theorem fitnessAlong_cons (c : Coverage) (level : Nat) (t : Target) (ts : List Target) :
    fitnessAlong c level (t :: ts) =
      match c.get? t with
      | some d => hopFitness level d
      | none => fitnessAlong c (level + 1) ts := rfl

theorem exists_hasValue_fitnessAlong (hc : c.Finite) (h : level + ts.length ≤ 2 ^ 64) :
    ∃ P, HasValue (fitnessAlong c level ts) P := by
  induction ts generalizing level with
  | nil => exact ⟨_, hasValue_maxFitness⟩
  | cons t ts ih =>
    rw [List.length_cons] at h
    rw [fitnessAlong_cons]
    rcases ht : c.get? t with _ | d
    · exact ih (by omega)
    · obtain ⟨p, hp⟩ := exists_value (hc t d ht)
      exact exists_value ⟨(hopFitness_of_value hp level).1, hopFitness_le_maxFitness hp (by omega)⟩

/-- The fitness of vertices some hops up a path is at least the number of hops. -/
theorem ofNat_le_fitnessAlong (hc : c.Finite) (h : level + ts.length ≤ 2 ^ 64) :
    Float.ofNat level ≤ fitnessAlong c level ts := by
  induction ts generalizing level with
  | nil =>
    obtain ⟨q, hq, -⟩ := exists_hasValue_ofNat h
    exact hq.inRange.2
  | cons t ts ih =>
    rw [List.length_cons] at h
    rw [fitnessAlong_cons]
    rcases ht : c.get? t with _ | d
    · exact le_trans (ofNat_mono (by omega) (Nat.le_succ level)) (ih (by omega))
    · obtain ⟨p, hp⟩ := exists_value (hc t d ht)
      exact ofNat_le_hopFitness hp (by omega)

theorem fitnessAlong_le (hc : c'.Finite) (hext : c.Extends c') (h : level + ts.length ≤ 2 ^ 64) :
    fitnessAlong c' level ts ≤ fitnessAlong c level ts := by
  induction ts generalizing level with
  | nil => exact le_refl isNaN_maxFitness
  | cons t ts ih =>
    rcases ht : c.get? t with _ | d
    · rw [List.length_cons] at h
      have hrest : level + 1 + ts.length ≤ 2 ^ 64 := by omega
      rw [fitnessAlong_cons c level, ht, fitnessAlong_cons]
      rcases ht' : c'.get? t with _ | d
      · exact ih hrest
      · -- the further target is nearer than all that was recorded
        obtain ⟨p, hp⟩ := exists_value (hc t d ht')
        have hlevel := hopFitness_le_ofNat hp (Nat.lt_succ_self level) (by omega)
        exact le_trans hlevel (ofNat_le_fitnessAlong (hext.finite hc) hrest)
    · have hsame : fitnessAlong c' level (t :: ts) = fitnessAlong c level (t :: ts) := by
        rw [fitnessAlong_cons, fitnessAlong_cons, ht, hext t d ht]
      obtain ⟨P, hP⟩ := exists_hasValue_fitnessAlong (hext.finite hc) h
      rw [hsame]
      exact le_refl hP.isNaN_eq_false

theorem HasPath.length_climb_le {root v : Nat} {w : List Nat} (h : o.HasPath r root v w)
    (hg : Graph.ofRecord r = .ok o.graph) : (o.graph.climb o.target).length ≤ 2 ^ 64 := by
  rw [h.climb_eq, List.length_map, List.length_reverse]
  exact h.length_le hg

end BlockObjective

/-! ## Reaching more -/

/-- An execution that reached further targets has no greater fitness, however far it stayed from them, and more covered
vertices are no more hops away. -/
theorem fitness_le_of_extends (r : Record) (o : BlockObjective) (h : Graph.ofRecord r = .ok o.graph) :
    (∀ c c' : Coverage, c'.Finite → c.Extends c' → o.fitness c' ≤ o.fitness c) ∧
      ∀ covered covered' : Target → Bool, (∀ t, covered t = true → covered' t = true) → ∃ n n',
        o.graph.approachLevel o.target covered = .ok n ∧ o.graph.approachLevel o.target covered' = .ok n' ∧ n' ≤ n := by
  obtain ⟨root, v, w, -, hpath⟩ := BlockObjective.exists_hasPath h
  refine ⟨fun c c' hc hext => ?_, fun covered covered' himp => ?_⟩
  · apply BlockObjective.fitnessAlong_le hc hext
    rw [Nat.zero_add]
    exact hpath.length_climb_le h
  · exact ⟨_, _, hpath.approachLevel_eq covered, hpath.approachLevel_eq covered', findIdx_le_of_imp himp⟩

/-- An execution that reached block 4 too, but stayed far from it. -/
def alsoAtFour : Coverage := atBlockOne.record ⟨"f", 4⟩ 1000000000

theorem finite_alsoAtFour : alsoAtFour.Finite := by
  apply Coverage.finite_ofList
    (l := [(.root "f", 0), (⟨"g", 5⟩, 0), (⟨"f", 1⟩, 4), (⟨"f", 1⟩, 3), (⟨"f", 3⟩, 0), (⟨"f", 4⟩, 1000000000)])
  simp only [List.forall_mem_cons]
  exact ⟨⟨0, by decide, rfl⟩, ⟨0, by decide, rfl⟩, ⟨4, by decide, rfl⟩, ⟨3, by decide, rfl⟩, ⟨0, by decide, rfl⟩,
    ⟨1000000000, by decide, rfl⟩, List.forall_mem_nil _⟩

theorem fitness_le_of_extends_alsoAtFour : ∃ o : BlockObjective, Graph.ofRecord crossedRecord = .ok o.graph ∧
    o.target = ⟨"f", 5⟩ ∧ alsoAtFour.Finite ∧ atBlockOne.Extends alsoAtFour ∧
    o.fitness alsoAtFour ≤ o.fitness atBlockOne ∧ ∃ n n', o.graph.approachLevel o.target atBlockOne.contains = .ok n ∧
      o.graph.approachLevel o.target alsoAtFour.contains = .ok n' ∧ n' ≤ n := by
  obtain ⟨o, hg, ho⟩ := exists_objective_crossedRecord
  have hext : atBlockOne.Extends alsoAtFour := Coverage.extends_record rfl 1000000000
  obtain ⟨hfitness, hlevel⟩ := fitness_le_of_extends crossedRecord o hg
  exact ⟨o, hg, ho, finite_alsoAtFour, hext, hfitness _ _ finite_alsoAtFour hext, hlevel _ _ fun t => hext.contains⟩

/-! ## Coming closer -/

theorem Double.hasValue_least (hd : HasValue d p) (hy : HasValue y q) (h : q ≤ p) : HasValue (least d y) q := by
  unfold least
  split <;> rename_i hlt
  · exact hy
  · rw [hd.isNaN_eq_false, Bool.or_false, decide_eq_true_eq, hy.lt_iff hd, not_lt] at hlt
    rwa [h.antisymm hlt]

namespace BlockObjective
open Double

/-- The distance of the nearest recorded vertex decides alone. -/
theorem fitnessAlong_record (hd : c.get? u = some d) (y : Float) (level : Nat) (ts : List Target) :
    (ts.find? c.contains ≠ some u → fitnessAlong (c.record u y) level ts = fitnessAlong c level ts) ∧
      (ts.find? c.contains = some u → ∃ n ≤ level + ts.length,
        fitnessAlong c level ts = hopFitness n d ∧ fitnessAlong (c.record u y) level ts = hopFitness n (least d y)) := by
  induction ts generalizing level with
  | nil => simp [fitnessAlong]
  | cons t ts ih =>
    obtain ⟨hoff, hat⟩ := ih (level + 1)
    rw [fitnessAlong_cons, fitnessAlong_cons, List.find?_cons, Coverage.contains]
    rcases eq_or_ne t u with rfl | ht
    · rw [hd, Coverage.get?_record hd]
      exact ⟨fun hne => absurd rfl hne, fun _ => ⟨level, Nat.le_add_right _ _, rfl, rfl⟩⟩
    · rw [Coverage.get?_record_of_ne ht]
      rcases c.get? t with _ | e
      · refine ⟨hoff, fun hfind => ?_⟩
        obtain ⟨n, hn, hbefore, hafter⟩ := hat hfind
        refine ⟨n, ?_, hbefore, hafter⟩
        rw [List.length_cons]
        omega
      · exact ⟨fun _ => rfl, fun hfind => absurd (Option.some.inj hfind) ht⟩

end BlockObjective

/-- When the distance at a recorded vertex gets smaller, the fitness does not rise by more than one part in `2 ^ 50`. It
does not rise at all while another vertex is the nearest one, while the quotients of the two distances differ by one
part in `2 ^ 51`, or while the distances are whole numbers below `2 ^ 53`. -/
theorem fitness_record_le (r : Record) (o : BlockObjective) (h : Graph.ofRecord r = .ok o.graph) (c : Coverage)
    (hc : c.Finite) (u : Target) (d y : Float) (hd : c.get? u = some d) (hy : 0 ≤ y) (hle : y ≤ d) : ∃ p q P Q,
    Double.HasValue d p ∧ Double.HasValue y q ∧ Double.HasValue (o.fitness c) P ∧
      Double.HasValue (o.fitness (c.record u y)) Q ∧ Q ≤ P * (1 + 2 ^ (-50 : ℤ)) ∧
      ((o.graph.climb o.target).find? c.contains ≠ some u ∨ q / (q + 1) * (1 + 2 ^ (-51 : ℤ)) ≤ p / (p + 1) ∨
        (∃ m n : ℕ, q = m ∧ p = n ∧ n < 2 ^ 53) → o.fitness (c.record u y) ≤ o.fitness c) := by
  obtain ⟨root, v, w, -, hpath⟩ := BlockObjective.exists_hasPath h
  have hlength := hpath.length_climb_le h
  obtain ⟨hd0, hdmax⟩ := hc u d hd
  obtain ⟨p, hp⟩ := Double.exists_value ⟨hd0, hdmax⟩
  obtain ⟨q, hq⟩ := Double.exists_value ⟨hy, Double.le_trans hle hdmax⟩
  have hqp : q ≤ p := (hq.le_iff hp).1 hle
  have hleast := Double.hasValue_least hp hq hqp
  obtain ⟨hoff, hat⟩ := BlockObjective.fitnessAlong_record hd y 0 (o.graph.climb o.target)
  rcases eq_or_ne ((o.graph.climb o.target).find? c.contains) (some u) with hfind | hfind
  · obtain ⟨n, hn, hbefore, hafter⟩ := hat hfind
    have hn64 : n ≤ 2 ^ 64 := by omega
    have hbefore' : o.fitness c = Double.hopFitness n d := hbefore
    have hafter' : o.fitness (c.record u y) = Double.hopFitness n (least d y) := hafter
    obtain ⟨P, Q, hP, hQ, hPQ⟩ := Double.exists_hopFitness_le hleast hp hn64 hqp
    rw [hbefore', hafter']
    refine ⟨p, q, P, Q, hp, hq, hP, hQ, hPQ, fun hcases => ?_⟩
    have hcases' := hcases.resolve_left (not_not.2 hfind)
    exact Double.hopFitness_le hleast hp hn64 (Double.normalize_le hleast hp hqp hcases')
  · have hsame : o.fitness (c.record u y) = o.fitness c := hoff hfind
    have hvalue : ∃ P, Double.HasValue (o.fitness c) P :=
      BlockObjective.exists_hasValue_fitnessAlong hc (by rwa [Nat.zero_add])
    obtain ⟨P, hP⟩ := hvalue
    rw [hsame]
    refine ⟨p, q, P, P, hp, hq, hP, hP, ?_, fun _ => Double.le_refl hP.isNaN_eq_false⟩
    exact le_mul_of_one_le_right hP.nonneg (by norm_num)

theorem fitness_record_le_farAtFour : ∃ o : BlockObjective, Graph.ofRecord crossedRecord = .ok o.graph ∧
    o.target = ⟨"f", 5⟩ ∧ farAtFour.Finite ∧ farAtFour.get? ⟨"f", 4⟩ = some 1000000000 ∧ (0 : Float) ≤ 999999999 ∧
    (999999999 : Float) ≤ 1000000000 ∧ o.fitness (farAtFour.record ⟨"f", 4⟩ 999999999) ≤ o.fitness farAtFour := by
  obtain ⟨o, hg, ho⟩ := exists_objective_crossedRecord
  have hfar : farAtFour.Finite := Coverage.finite_ofList (List.forall_mem_singleton.2 ⟨1000000000, by decide, rfl⟩)
  have hy : Double.HasValue 999999999 (999999999 : ℕ) := Double.hasValue_ofNat (by norm_num)
  have hd : Double.HasValue 1000000000 (1000000000 : ℕ) := Double.hasValue_ofNat (by norm_num)
  have hle : (999999999 : Float) ≤ 1000000000 := (hy.le_iff hd).2 (by norm_num)
  obtain ⟨p, q, P, Q, hp, hq, -, -, -, hfitness⟩ :=
    fitness_record_le crossedRecord o hg farAtFour hfar ⟨"f", 4⟩ 1000000000 999999999 rfl hy.inRange.1 hle
  refine ⟨o, hg, ho, hfar, rfl, hy.inRange.1, hle, hfitness ?_⟩
  exact Or.inr (Or.inr ⟨999999999, 1000000000, hq.unique hy, hp.unique hd, by norm_num⟩)

/-- An execution that reached block 5 at the double after 1.4. -/
def nearFive : Coverage := .ofList [(⟨"f", 5⟩, Float.ofBits 0x3FF6666666666667)]

/-- The divisor of 1.4 is exact, and that of the double after it is rounded up. -/
theorem not_le_nearFive : ∃ o : BlockObjective, Graph.ofRecord crossedRecord = .ok o.graph ∧ o.target = ⟨"f", 5⟩ ∧
    nearFive.Finite ∧ nearFive.get? o.target = some (Float.ofBits 0x3FF6666666666667) ∧ (0 : Float) ≤ 1.4 ∧
    1.4 ≤ Float.ofBits 0x3FF6666666666667 ∧ ¬ o.fitness (nearFive.record o.target 1.4) ≤ o.fitness nearFive := by
  obtain ⟨o, hg, ho, hclimb⟩ := exists_climb_crossedRecord
  have hrun : (0 ≤ Float.ofBits 0x3FF6666666666667 ∧ Float.ofBits 0x3FF6666666666667 ≤ maxFitness) ∧
      (0 : Float) ≤ 1.4 ∧ 1.4 ≤ Float.ofBits 0x3FF6666666666667 ∧
      ¬ BlockObjective.fitnessAlong (nearFive.record ⟨"f", 5⟩ 1.4) 0 [⟨"f", 5⟩] ≤
        BlockObjective.fitnessAlong nearFive 0 [⟨"f", 5⟩] := by
    decide +kernel
  obtain ⟨hrange, hy, hle, hrises⟩ := hrun
  have hnear : nearFive.Finite := Coverage.finite_of_entries (List.forall_mem_singleton.2 hrange)
  refine ⟨o, hg, ho, hnear, ?_, hy, hle, ?_⟩
  · rw [ho]
    rfl
  · unfold BlockObjective.fitness
    rw [hclimb, ho]
    exact hrises

end CoverSearch
