import CoverSearch.Proofs.Graph.Fitness
import CoverSearch.Proofs.Value.Hops

/-!
# Fitness by approach level

The recorded distance that is nearest to the target decides the fitness, as many hops away as the approach level says.
There are no more hops than blocks, so a fitness is in range whenever it is a number; an infinite distance makes it a
NaN.

A smaller level has the smaller fitness. The two are told apart as long as the distance on the smaller level is small
enough for its hops. A large one is normalized to one, or the sum with the hops is rounded up to the next level, where
it meets a distance that is nearly zero.

* `BlockObjective.HasPath.fitness_of_nearestDistance`, `BlockObjective.HasPath.fitness_of_nearestDistance_eq_none` : the
  fitness by the nearest distance;
* `BlockObjective.HasPath.fitness_spec` : when it is a NaN, and when it is zero;
* `fitness_inRange_iff` : when it is in range;
* `fitness_lt_or_tie` : the fitness of two levels.
-/

namespace CoverSearch

variable {o : BlockObjective} {r : Record} {cov cov' : Coverage} {d : Float} {root v n n' : Nat} {w : List Nat}
  {l : List UInt64}

namespace Coverage

/-- Every distance is a number that is not below zero. -/
def Nonneg (c : Coverage) : Prop := ∀ t d, c.get? t = some d → 0 ≤ d

/-- Every distance is a number that is not below zero, and not infinite. -/
def Finite (c : Coverage) : Prop := ∀ t d, c.get? t = some d → 0 ≤ d ∧ d ≤ maxFitness

/-- A target is recorded with distance zero. -/
def Hits (c : Coverage) (t : Target) : Prop := ∃ d, c.get? t = some d ∧ (d == 0) = true

variable {P : Float → Prop}

theorem forall_recordIn (hd : P d) (t : Target) {entries : List (Target × Float)} (h : ∀ e ∈ entries, P e.2) :
    ∀ e ∈ recordIn t d entries, P e.2 := by
  induction entries with
  | nil => exact List.forall_mem_singleton.2 hd
  | cons entry rest ih =>
    obtain ⟨hentry, hrest⟩ := List.forall_mem_cons.1 h
    unfold recordIn
    split
    · refine List.forall_mem_cons.2 ⟨?_, hrest⟩
      unfold least
      split
      · exact hd
      · exact hentry
    · exact List.forall_mem_cons.2 ⟨hentry, ih hrest⟩

theorem forall_ofList {l : List (Target × Float)} (h : ∀ e ∈ l, P e.2) : ∀ e ∈ (ofList l).entries, P e.2 := by
  apply List.foldlRecOn (motive := fun c : Coverage => ∀ e ∈ c.entries, P e.2) l _ (List.forall_mem_nil _)
  intro c hc e he
  exact forall_recordIn (h e he) e.1 hc

theorem forall_of_entries (h : ∀ e ∈ cov.entries, P e.2) (t : Target) (d : Float) (ht : cov.get? t = some d) :
    P d := by
  obtain ⟨before, after, hentries, -⟩ := List.lookup_eq_some_iff.1 ht
  apply h (t, d)
  rw [hentries]
  simp

theorem nonneg_of_entries (h : ∀ e ∈ cov.entries, 0 ≤ e.2) : cov.Nonneg := forall_of_entries h

theorem finite_of_entries (h : ∀ e ∈ cov.entries, 0 ≤ e.2 ∧ e.2 ≤ maxFitness) : cov.Finite := forall_of_entries h

theorem finite_ofList {l : List (Target × Float)} (h : ∀ e ∈ l, ∃ n ≤ 2 ^ 53, e.2 = Float.ofNat n) :
    (ofList l).Finite := by
  apply finite_of_entries
  apply forall_ofList (P := fun d => 0 ≤ d ∧ d ≤ maxFitness)
  intro e he
  obtain ⟨n, hn, heq⟩ := h e he
  rw [heq]
  exact (Double.hasValue_ofNat hn).inRange

theorem Finite.nonneg (h : cov.Finite) : cov.Nonneg := fun t d hd => (h t d hd).1

end Coverage

/-- There are no more distinct blocks than numbers for them. -/
theorem length_le_of_nodup (h : l.Nodup) : l.length ≤ 2 ^ 64 := by
  have hsub : ∀ x ∈ l.map UInt64.toNat, x ∈ List.range (2 ^ 64) := by
    intro x hx
    obtain ⟨b, -, rfl⟩ := List.mem_map.1 hx
    exact List.mem_range.2 b.toNat_lt
  have hle := (List.subperm_of_subset (h.map fun _ _ => UInt64.toNat_inj.1) hsub).length_le
  rwa [List.length_map, List.length_range] at hle

namespace BlockObjective
open Double

/-! ## The nearest distance -/

/-- The recorded distance that is nearest to the target on its path. -/
def nearestDistance? (o : BlockObjective) (c : Coverage) : Option Float := (o.graph.climb o.target).findSome? c.get?

theorem exists_of_nearestDistance (hd : o.nearestDistance? cov = some d) : ∃ t, cov.get? t = some d := by
  unfold nearestDistance? at hd
  obtain ⟨t, -, ht⟩ := List.exists_of_findSome?_eq_some hd
  exact ⟨t, ht⟩

namespace HasPath
variable (h : o.HasPath r root v w)
include h

theorem fitness_of_nearestDistance (hd : o.nearestDistance? cov = some d) :
    ∃ n, o.graph.approachLevel o.target cov.contains = .ok n ∧ n < w.length ∧ o.fitness cov = hopFitness n d ∧
      (n = 0 → cov.get? o.target = some d) ∧ (n ≠ 0 → cov.get? o.target = none) := by
  obtain ⟨above, hclimb⟩ := h.exists_climb_cons
  unfold nearestDistance? at hd
  obtain ⟨below, t, above', hsplit, ht, hbelow⟩ := List.findSome?_eq_some_iff.1 hd
  refine ⟨below.length, ?_, ?_, ?_, ?_⟩
  · rw [h.approachLevel_eq, hsplit, findIdx_of_recorded ht hbelow]
  · have hlen := congrArg List.length (h.climb_eq.symm.trans hsplit)
    simp only [List.length_map, List.length_reverse, List.length_append, List.length_cons] at hlen
    omega
  · unfold fitness
    rw [hsplit, fitnessAlong_of_recorded ht hbelow, Nat.zero_add]
    rfl
  · rw [hclimb] at hsplit
    rcases below with _ | ⟨s, below⟩
    · rw [List.head_eq_of_cons_eq hsplit]
      exact ⟨fun _ => ht, fun hne => absurd rfl hne⟩
    · rw [List.head_eq_of_cons_eq hsplit]
      exact ⟨fun hzero => absurd hzero (Nat.succ_ne_zero _), fun _ => hbelow s List.mem_cons_self⟩

theorem fitness_of_nearestDistance_eq_none (hd : o.nearestDistance? cov = none) :
    o.graph.approachLevel o.target cov.contains = .ok w.length ∧ o.fitness cov = maxFitness ∧
      cov.get? o.target = none := by
  obtain ⟨above, hclimb⟩ := h.exists_climb_cons
  unfold nearestDistance? at hd
  have hnone := List.findSome?_eq_none_iff.1 hd
  refine ⟨?_, fitnessAlong_of_unrecorded hnone 0, hnone _ ?_⟩
  · rw [h.approachLevel_eq, findIdx_of_unrecorded hnone, h.climb_eq, List.length_map, List.length_reverse]
  · rw [hclimb]
    exact List.mem_cons_self

theorem fitness_spec (hc : cov.Nonneg) :
    ((o.fitness cov).isNaN = true ↔ ∃ d, o.nearestDistance? cov = some d ∧ maxFitness < d) ∧
      (o.fitness cov ≤ 0 ↔ cov.Hits o.target) ∧ ((o.fitness cov == 0) = true ↔ cov.Hits o.target) := by
  rcases hd : o.nearestDistance? cov with _ | d
  · obtain ⟨-, hfitness, hnone⟩ := h.fitness_of_nearestDistance_eq_none hd
    have hhits : ¬ cov.Hits o.target := by
      simp [Coverage.Hits, hnone]
    have hpos : ¬ maxFitness ≤ 0 := fun hle => lt_irrefl 0 (lt_of_lt_of_le zero_lt_maxFitness hle)
    rw [hfitness]
    refine ⟨?_, iff_of_false hpos hhits, iff_of_false (fun hbeq => hpos (beq_iff_le.1 hbeq).1) hhits⟩
    rw [isNaN_maxFitness]
    simp
  · obtain ⟨n, -, -, hfitness, hzero, hpos⟩ := h.fitness_of_nearestDistance hd
    have hhits : cov.Hits o.target ↔ n = 0 ∧ (d == 0) = true := by
      rcases eq_or_ne n 0 with hn | hn
      · simp [Coverage.Hits, hzero hn, hn]
      · simp [Coverage.Hits, hpos hn, hn]
    obtain ⟨t, ht⟩ := exists_of_nearestDistance hd
    rw [hfitness, hhits]
    simpa using hopFitness_spec (hc t d ht) n

/-! ## Bounds -/

theorem length_le (hg : Graph.ofRecord r = .ok o.graph) : w.length ≤ 2 ^ 64 := by
  obtain ⟨i, hpos⟩ := Option.isSome_iff_exists.1 o.mem
  obtain ⟨hi, heq⟩ := Graph.vertex_of_position? hpos
  rw [Graph.size, (Graph.ofRecord_eq_ok hg).2.2.2.2.2.1] at hi
  rw [Graph.vertex_eq_target hg] at heq
  obtain ⟨c, hc, -, hpath⟩ := Graph.exists_climb hg hi
  obtain ⟨unseen, hfound⟩ := Graph.discovers_ofRecord hg
  have hlen := congrArg List.length (Except.ok.inj ((heq ▸ h.pathTo_eq).symm.trans hpath))
  simp only [List.length_map] at hlen
  rw [hlen]
  exact (hfound.length_le hc).trans (length_le_of_nodup (Graph.ofRecord_eq_ok hg).1)

theorem inRange_of_finite (hg : Graph.ofRecord r = .ok o.graph)
    (hd : ∀ d, o.nearestDistance? cov = some d → 0 ≤ d ∧ d ≤ maxFitness) :
    0 ≤ o.fitness cov ∧ o.fitness cov ≤ maxFitness := by
  rcases hnearest : o.nearestDistance? cov with _ | d
  · obtain ⟨-, hfitness, -⟩ := h.fitness_of_nearestDistance_eq_none hnearest
    rw [hfitness]
    exact hasValue_maxFitness.inRange
  · obtain ⟨n, -, hn, hfitness, -⟩ := h.fitness_of_nearestDistance hnearest
    obtain ⟨p, hp⟩ := exists_value (hd d hnearest)
    rw [hfitness]
    exact ⟨(hopFitness_of_value hp n).1, hopFitness_le_maxFitness hp (hn.le.trans (h.length_le hg))⟩

theorem exists_approachLevel (cov : Coverage) :
    ∃ n, o.graph.approachLevel o.target cov.contains = .ok n ∧ n ≤ w.length := by
  refine ⟨_, h.approachLevel_eq _, ?_⟩
  rw [h.climb_eq]
  apply List.findIdx_le_length.trans
  simp

/-- Below the root's level there is a distance. -/
theorem exists_nearestDistance (hn : o.graph.approachLevel o.target cov.contains = .ok n) (hlt : n < w.length) :
    ∃ d, o.nearestDistance? cov = some d ∧ o.fitness cov = hopFitness n d := by
  rcases hd : o.nearestDistance? cov with _ | d
  · obtain ⟨hlevel, -, -⟩ := h.fitness_of_nearestDistance_eq_none hd
    obtain rfl := Except.ok.inj (hn.symm.trans hlevel)
    exact absurd hlt (lt_irrefl _)
  · obtain ⟨m, hlevel, -, hfitness, -⟩ := h.fitness_of_nearestDistance hd
    obtain rfl := Except.ok.inj (hn.symm.trans hlevel)
    exact ⟨d, rfl, hfitness⟩

theorem ofNat_le_fitness (hg : Graph.ofRecord r = .ok o.graph) (hc : cov.Finite)
    (hn : o.graph.approachLevel o.target cov.contains = .ok n) : Float.ofNat n ≤ o.fitness cov := by
  rcases hd : o.nearestDistance? cov with _ | d
  · obtain ⟨hlevel, hfitness, -⟩ := h.fitness_of_nearestDistance_eq_none hd
    obtain rfl := Except.ok.inj (hn.symm.trans hlevel)
    obtain ⟨q, hq, -⟩ := exists_hasValue_ofNat (h.length_le hg)
    rw [hfitness, hq.le_iff hasValue_maxFitness]
    exact hq.le_greatest
  · obtain ⟨m, hlevel, hm, hfitness, -⟩ := h.fitness_of_nearestDistance hd
    obtain rfl := Except.ok.inj (hn.symm.trans hlevel)
    obtain ⟨t, ht⟩ := exists_of_nearestDistance hd
    obtain ⟨p, hp⟩ := exists_value (hc t d ht)
    rw [hfitness]
    exact ofNat_le_hopFitness hp (hm.le.trans (h.length_le hg))

end HasPath

end BlockObjective

/-! ## Main statements -/

theorem exists_climb_crossedRecord : ∃ o : BlockObjective, Graph.ofRecord crossedRecord = .ok o.graph ∧
    o.target = ⟨"f", 5⟩ ∧ o.graph.climb o.target = [⟨"f", 5⟩, ⟨"f", 4⟩, ⟨"f", 1⟩, .root "f"] := by
  have hrun : ((Graph.ofRecord crossedRecord).toOption.map fun g => (g.contains ⟨"f", 5⟩, g.climb ⟨"f", 5⟩)) =
      some (true, [⟨"f", 5⟩, ⟨"f", 4⟩, ⟨"f", 1⟩, .root "f"]) := by
    decide +kernel
  obtain ⟨g, hg, heq⟩ := Option.map_eq_some_iff.1 hrun
  obtain ⟨hmem, hclimb⟩ := Prod.mk.inj heq
  exact ⟨⟨g, ⟨"f", 5⟩, hmem⟩, toOption_eq_some.1 hg, rfl, hclimb⟩

theorem exists_objective_crossedRecord : ∃ o : BlockObjective, Graph.ofRecord crossedRecord = .ok o.graph ∧
    o.target = ⟨"f", 5⟩ := by
  obtain ⟨o, hg, ho, -⟩ := exists_climb_crossedRecord
  exact ⟨o, hg, ho⟩

theorem finite_atBlockOne : atBlockOne.Finite := by
  apply Coverage.finite_ofList
  simp only [List.forall_mem_cons]
  exact ⟨⟨0, by decide, rfl⟩, ⟨0, by decide, rfl⟩, ⟨4, by decide, rfl⟩, ⟨3, by decide, rfl⟩, ⟨0, by decide, rfl⟩,
    List.forall_mem_nil _⟩

/-- The fitness of a vertex is a number from zero to `maxFitness`, unless the distance that is recorded nearest to it is
infinite. Then it is a NaN. -/
theorem fitness_inRange_iff (r : Record) (o : BlockObjective) (h : Graph.ofRecord r = .ok o.graph) (c : Coverage)
    (hc : c.Nonneg) :
    ((o.fitness c).isNaN = true ↔ ∃ d, o.nearestDistance? c = some d ∧ maxFitness < d) ∧
      (0 ≤ o.fitness c ∧ o.fitness c ≤ maxFitness ↔ ¬ ∃ d, o.nearestDistance? c = some d ∧ maxFitness < d) := by
  obtain ⟨root, v, w, -, hpath⟩ := BlockObjective.exists_hasPath h
  have hnan := (hpath.fitness_spec hc).1
  refine ⟨hnan, fun hrange hinfinite => ?_, fun hfinite => ?_⟩
  · exact Double.not_le_of_isNaN (hnan.2 hinfinite) hrange.2
  · apply hpath.inRange_of_finite h
    intro d hd
    obtain ⟨t, ht⟩ := BlockObjective.exists_of_nearestDistance hd
    have hnonneg := hc t d ht
    rw [Double.le_iff_not_lt (Double.isNaN_of_le_right hnonneg) Double.isNaN_maxFitness]
    exact ⟨hnonneg, fun hlt => hfinite ⟨d, hd, hlt⟩⟩

theorem fitness_inRange_iff_atBlockOne : ∃ o : BlockObjective, Graph.ofRecord crossedRecord = .ok o.graph ∧
    o.target = ⟨"f", 5⟩ ∧ atBlockOne.Nonneg ∧ (o.fitness atBlockOne).isNaN = false ∧ 0 ≤ o.fitness atBlockOne ∧
    o.fitness atBlockOne ≤ maxFitness := by
  obtain ⟨o, hg, ho⟩ := exists_objective_crossedRecord
  have hnonneg := finite_atBlockOne.nonneg
  obtain ⟨-, hrange⟩ := fitness_inRange_iff crossedRecord o hg atBlockOne hnonneg
  have hfinite : ¬ ∃ d, o.nearestDistance? atBlockOne = some d ∧ maxFitness < d := by
    rintro ⟨d, hd, hlt⟩
    obtain ⟨t, ht⟩ := BlockObjective.exists_of_nearestDistance hd
    exact Double.lt_irrefl maxFitness (Double.lt_of_lt_of_le hlt (finite_atBlockOne t d ht).2)
  exact ⟨o, hg, ho, hnonneg, Double.isNaN_of_le (hrange.2 hfinite).2, hrange.2 hfinite⟩

/-- An execution that records the distance at block 5 as infinite. -/
def lostAtFive : Coverage := .ofList [(⟨"f", 5⟩, 1 / 0)]

theorem not_inRange_lostAtFive : ∃ o : BlockObjective, Graph.ofRecord crossedRecord = .ok o.graph ∧
    o.target = ⟨"f", 5⟩ ∧ lostAtFive.Nonneg ∧ (o.fitness lostAtFive).isNaN = true ∧
    ¬ (0 ≤ o.fitness lostAtFive ∧ o.fitness lostAtFive ≤ maxFitness) := by
  obtain ⟨o, hg, ho⟩ := exists_objective_crossedRecord
  obtain ⟨root, v, w, -, hpath⟩ := BlockObjective.exists_hasPath hg
  have hd : lostAtFive.get? o.target = some (1 / 0) := by
    rw [ho]
    rfl
  have hnan : (o.fitness lostAtFive).isNaN = true := by
    rw [hpath.fitness_of_target hd]
    exact Double.isNaN_normalize rfl
  have hnonneg : lostAtFive.Nonneg :=
    Coverage.nonneg_of_entries (List.forall_mem_singleton.2 (Double.hasValue_zero.le_infinity rfl))
  refine ⟨o, hg, ho, hnonneg, hnan, fun hrange => ?_⟩
  exact Double.not_le_of_isNaN hnan hrange.2

/-- Of two executions with finite distances, the one with the lower approach level has the lower fitness, or both have
the double of the level that is one higher than the lower one. They do not while the nearest distance of the lower one
is small. Up to 2 ^ 53 hops have doubles of their own. -/
theorem fitness_lt_or_tie (r : Record) (o : BlockObjective) (h : Graph.ofRecord r = .ok o.graph) (c c' : Coverage)
    (hc : c.Finite) (hc' : c'.Finite) : ∃ n n',
      o.graph.approachLevel o.target c.contains = .ok n ∧ o.graph.approachLevel o.target c'.contains = .ok n' ∧
      (n < n' → n + 1 < 2 ^ 53 →
        (o.fitness c < o.fitness c' ∨
          n' = n + 1 ∧ (o.fitness c == Float.ofNat n') = true ∧ (o.fitness c' == Float.ofNat n') = true) ∧
        ∀ d k, o.nearestDistance? c = some d → d ≤ Float.ofNat k → (n + 1) * (k + 1) ≤ 2 ^ 51 →
          o.fitness c < o.fitness c') := by
  obtain ⟨root, v, w, -, hpath⟩ := BlockObjective.exists_hasPath h
  obtain ⟨n, hn, -⟩ := hpath.exists_approachLevel c
  obtain ⟨n', hn', hlength⟩ := hpath.exists_approachLevel c'
  refine ⟨n, n', hn, hn', fun hlt hbits => ?_⟩
  obtain ⟨d, hd, hfitness⟩ := hpath.exists_nearestDistance hn (hlt.trans_le hlength)
  obtain ⟨t, ht⟩ := BlockObjective.exists_of_nearestDistance hd
  obtain ⟨p, hp⟩ := Double.exists_value (hc t d ht)
  have hlower : Float.ofNat n' ≤ o.fitness c' := hpath.ofNat_le_fitness h hc' hn'
  have hupper : o.fitness c ≤ Float.ofNat (n + 1) := by
    rw [hfitness]
    exact Double.hopFitness_le_ofNat_succ hp (Nat.lt_of_succ_lt hbits)
  refine ⟨Double.lt_or_tie hupper hlower hlt hbits, fun d' k hd' hk hsmall => ?_⟩
  obtain rfl : d = d' := Option.some.inj (hd.symm.trans hd')
  have hstrict : o.fitness c < Float.ofNat (n + 1) := by
    rw [hfitness]
    exact Double.hopFitness_lt_ofNat_succ hp (Double.room_of_le hp hk hsmall)
  exact Double.lt_of_lt_of_le hstrict (Double.le_trans (Double.ofNat_le_ofNat hbits.le hlt) hlower)

/-- An execution that came one edge nearer to block 5 than block 1, but stayed far from it there. -/
def farAtFour : Coverage := .ofList [(⟨"f", 4⟩, 1000000000)]

theorem fitness_lt_or_tie_farAtFour : ∃ o : BlockObjective, Graph.ofRecord crossedRecord = .ok o.graph ∧
    o.target = ⟨"f", 5⟩ ∧ farAtFour.Finite ∧ atBlockOne.Finite ∧ o.fitness farAtFour < o.fitness atBlockOne := by
  obtain ⟨o, hg, ho, hclimb⟩ := exists_climb_crossedRecord
  obtain ⟨root, v, w, -, hpath⟩ := BlockObjective.exists_hasPath hg
  have hfar : farAtFour.Finite := Coverage.finite_ofList (List.forall_mem_singleton.2 ⟨1000000000, by decide, rfl⟩)
  obtain ⟨n, n', hn, hn', hless⟩ := fitness_lt_or_tie crossedRecord o hg farAtFour atBlockOne hfar finite_atBlockOne
  rw [hpath.approachLevel_eq, hclimb] at hn hn'
  obtain rfl : 1 = n := Except.ok.inj hn
  obtain rfl : 2 = n' := Except.ok.inj hn'
  have hd : o.nearestDistance? farAtFour = some 1000000000 := by
    unfold BlockObjective.nearestDistance?
    rw [hclimb]
    rfl
  have hk : (1000000000 : Float) ≤ Float.ofNat 1000000000 :=
    Double.le_refl (Double.hasValue_ofNat (by norm_num)).isNaN_eq_false
  exact ⟨o, hg, ho, hfar, finite_atBlockOne, (hless (by decide) (by decide)).2 _ _ hd hk (by decide)⟩

/-- An execution that reached block 5, at a distance of 2 ^ 53. -/
def farAtFive : Coverage := .ofList [(⟨"f", 5⟩, 9007199254740992)]

/-- An execution that reached the block one edge before block 5, at distance zero. -/
def atBlockFour : Coverage := .ofList [(⟨"f", 4⟩, 0)]

theorem not_lt_farAtFive : ∃ o : BlockObjective, Graph.ofRecord crossedRecord = .ok o.graph ∧ o.target = ⟨"f", 5⟩ ∧
    farAtFive.Finite ∧ atBlockFour.Finite ∧ o.graph.approachLevel o.target farAtFive.contains = .ok 0 ∧
    o.graph.approachLevel o.target atBlockFour.contains = .ok 1 ∧ ¬ o.fitness farAtFive < o.fitness atBlockFour := by
  obtain ⟨o, hg, ho, hclimb⟩ := exists_climb_crossedRecord
  obtain ⟨root, v, w, -, hpath⟩ := BlockObjective.exists_hasPath hg
  have hfive : farAtFive.Finite :=
    Coverage.finite_ofList (List.forall_mem_singleton.2 ⟨9007199254740992, by decide, rfl⟩)
  have hfour : atBlockFour.Finite := Coverage.finite_ofList (List.forall_mem_singleton.2 ⟨0, by decide, rfl⟩)
  refine ⟨o, hg, ho, hfive, hfour, ?_, ?_, ?_⟩
  · rw [hpath.approachLevel_eq, hclimb]
    rfl
  · rw [hpath.approachLevel_eq, hclimb]
    rfl
  · unfold BlockObjective.fitness
    rw [hclimb]
    decide +kernel

end CoverSearch
