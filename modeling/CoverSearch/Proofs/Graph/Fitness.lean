import CoverSearch.Objective
import CoverSearch.Proofs.Coverage
import CoverSearch.Proofs.Graph.Paths

/-!
# Fitness along cached paths

The fitness of a vertex is decided by the first recorded vertex up its cached path. A part of a shortest walk is a
shortest walk, so the number of hops up to that vertex is its distance from there in the graph, and no other recorded
vertex of the path is as near.

* `IsDistance`, `IsNearest` : distances by edges, and the nearest vertex of a path with some property;
  `IsFirstShortest.isNearest` : it is the last one;
* `BlockObjective.fitnessAlong_of_recorded`, `BlockObjective.fitnessAlong_of_unrecorded` : the fitness up a path;
* `BlockObjective.fitnessByLevel` : the same by an index into the path; `BlockObjective.HasPath.fitnessByLevel_eq` : the
  index is never out of range;
* `fitness_nearest` : the fitness as a whole.
-/

namespace CoverSearch

variable {r : Record} {edges : List (Nat × Nat)} {a b root u v n : Nat} {w x before after : List Nat} {c c' : Coverage}
  {o : BlockObjective} {t s : Target} {d : Float} {ts below above path : List Target}

/-! ## Parts of walks -/

/-- The least number of edges of a walk. -/
def IsDistance (edges : List (Nat × Nat)) (u v k : Nat) : Prop :=
  IsLeast {k | ∃ x, IsWalk edges u v x ∧ x.length = k + 1} k

theorem IsWalk.suffix (h : IsWalk edges u v (before ++ a :: after)) : IsWalk edges a v (a :: after) where
  head?_eq := rfl
  getLast?_eq := by
    rw [← h.getLast?_eq, List.getLast?_append_of_ne_nil]
    simp
  isChain := (List.isChain_append.1 h.isChain).2.1

/-- The part of a walk behind a vertex can be replaced by any walk from there. -/
theorem IsWalk.splice (h : IsWalk edges u v (before ++ a :: after)) (hx : IsWalk edges a v x) :
    IsWalk edges u v (before ++ x) := by
  obtain ⟨hhead, -, hchain⟩ := h
  obtain ⟨hbefore, -, hlink⟩ := List.isChain_append.1 hchain
  refine ⟨?_, ?_, ?_⟩
  · rw [← hhead, List.head?_append, List.head?_append, hx.head?_eq]
    rfl
  · rw [List.getLast?_append, hx.getLast?_eq]
    rfl
  · apply List.isChain_append.2
    refine ⟨hbefore, hx.isChain, fun y hy z hz => hlink y hy z ?_⟩
    rw [hx.head?_eq] at hz
    exact hz

/-- A part of a shortest walk is a shortest walk. -/
theorem IsFirstShortest.isDistance (h : IsFirstShortest edges u v (before ++ a :: after)) :
    IsDistance edges a v after.length := by
  refine ⟨⟨a :: after, h.isWalk.suffix, rfl⟩, ?_⟩
  rintro k ⟨x, hx, hlen⟩
  have hle := h.length_le _ (h.isWalk.splice hx)
  simp only [List.length_append, List.length_cons] at hle
  omega

/-- Vertex `a` of a path satisfies a property, and no other that does is as near to the end of the path. -/
structure IsNearest (edges : List (Nat × Nat)) (P : Nat → Prop) (v : Nat) (w : List Nat) (a n : Nat) : Prop where
  mem : a ∈ w
  holds : P a
  distance : IsDistance edges a v n
  lt : ∀ b ∈ w, P b → b ≠ a → ∀ k, IsDistance edges b v k → n < k

theorem IsFirstShortest.isNearest {P : Nat → Prop} (h : IsFirstShortest edges u v (before ++ a :: after)) (ha : P a)
    (hafter : ∀ b ∈ after, ¬ P b) : IsNearest edges P v (before ++ a :: after) a after.length := by
  refine ⟨by simp, ha, h.isDistance, fun b hb hPb hne k hk => ?_⟩
  have hbefore : b ∈ before := by
    rcases List.mem_append.1 hb with hb | hb
    · exact hb
    · rcases List.mem_cons.1 hb with rfl | hb
      · exact absurd rfl hne
      · exact absurd hPb (hafter b hb)
  obtain ⟨p, q, rfl⟩ := List.append_of_mem hbefore
  rw [List.append_assoc, List.cons_append] at h
  rw [hk.unique h.isDistance]
  simp only [List.length_append, List.length_cons]
  omega

theorem exists_last {P : Nat → Prop} (h : ∃ a ∈ w, P a) :
    ∃ before a after, w = before ++ a :: after ∧ P a ∧ ∀ b ∈ after, ¬ P b := by
  induction w with
  | nil => simp at h
  | cons x w ih =>
    by_cases hw : ∃ a ∈ w, P a
    · obtain ⟨before, a, after, rfl, ha, hafter⟩ := ih hw
      exact ⟨x :: before, a, after, rfl, ha, hafter⟩
    · obtain ⟨a, ha, hPa⟩ := h
      rcases List.mem_cons.1 ha with rfl | ha
      · exact ⟨[], a, w, rfl, hPa, fun b hb hPb => hw ⟨b, hb, hPb⟩⟩
      · exact absurd ⟨a, ha, hPa⟩ hw

/-! ## The nearest recorded vertex -/

namespace BlockObjective

theorem fitnessAlong_of_unrecorded (h : ∀ t ∈ ts, c.get? t = none) (level : Nat) :
    fitnessAlong c level ts = maxFitness := by
  induction ts generalizing level with
  | nil => rfl
  | cons t ts ih =>
    rw [List.forall_mem_cons] at h
    simp only [fitnessAlong, h.1]
    exact ih h.2 (level + 1)

theorem fitnessAlong_of_recorded (ht : c.get? t = some d) (h : ∀ s ∈ below, c.get? s = none) (level : Nat) :
    fitnessAlong c level (below ++ t :: above) =
      if level + below.length = 0 then normalize d else Float.ofNat (level + below.length) + normalize d := by
  induction below generalizing level with
  | nil => simp [fitnessAlong, ht]
  | cons s below ih =>
    rw [List.forall_mem_cons] at h
    simp only [List.cons_append, fitnessAlong, h.1]
    rw [ih h.2 (level + 1), List.length_cons, Nat.add_assoc, Nat.add_comm 1]

theorem fitnessAlong_congr (h : ∀ t ∈ ts, c'.get? t = c.get? t) (level : Nat) :
    fitnessAlong c' level ts = fitnessAlong c level ts := by
  induction ts generalizing level with
  | nil => rfl
  | cons t ts ih =>
    rw [List.forall_mem_cons] at h
    simp only [fitnessAlong, h.1, ih h.2]

/-! ## By the approach level -/

/-- The fitness by way of the approach level: the distance is looked up at the vertex that many hops up the path, and
one that is missing there is taken to be `missing`. -/
def fitnessByLevel (missing : Float) (o : BlockObjective) (c : Coverage) : Except Fault Float :=
  match c.get? o.target with
  | some d => .ok (normalize d)
  | none => do
    let path ← o.graph.pathTo o.target
    let level ← o.graph.approachLevel o.target c.contains
    if level = path.length then return maxFitness
    else if path.length < level + 1 then .error .outOfRange
    else
      match path[path.length - level - 1]? with
      | some t => return Float.ofNat level + normalize ((c.get? t).getD missing)
      | none => .error .outOfRange

theorem fitnessByLevel_of_path (missing : Float) (hpath : o.graph.pathTo o.target = .ok path)
    (ho : c.get? o.target = none) (hlevel : path.reverse.findIdx c.contains = n) :
    o.fitnessByLevel missing c =
      if n = path.length then .ok maxFitness
      else if path.length < n + 1 then .error .outOfRange
      else
        match path[path.length - n - 1]? with
        | some t => .ok (Float.ofNat n + normalize ((c.get? t).getD missing))
        | none => .error .outOfRange := by
  subst hlevel
  simp only [fitnessByLevel, Graph.approachLevel, ho, hpath]
  rfl

theorem findIdx_of_unrecorded (h : ∀ t ∈ ts, c.get? t = none) : ts.findIdx c.contains = ts.length := by
  rw [List.findIdx_eq_length]
  simpa [Coverage.contains] using h

theorem findIdx_of_recorded (ht : c.get? t = some d) (h : ∀ s ∈ below, c.get? s = none) :
    (below ++ t :: above).findIdx c.contains = below.length := by
  rw [List.findIdx_append, findIdx_of_unrecorded h, if_neg (Nat.lt_irrefl _)]
  simp [List.findIdx_cons, Coverage.contains, ht]

theorem findIdx_unrecorded (hnone : ∀ a ∈ w, c.get? (r.target a) = none) :
    (w.map r.target).reverse.findIdx c.contains = (w.map r.target).length := by
  rw [← List.length_reverse]
  apply findIdx_of_unrecorded
  simpa using hnone

theorem findIdx_nearest (hw : w = before ++ a :: after) (ha : c.get? (r.target a) = some d)
    (hafter : ∀ b ∈ after, c.get? (r.target b) = none) :
    (w.map r.target).reverse.findIdx c.contains = after.length := by
  have hsplit : (w.map r.target).reverse = after.reverse.map r.target ++ r.target a :: before.reverse.map r.target := by
    rw [hw]
    simp
  rw [hsplit, findIdx_of_recorded ha (by simpa using hafter)]
  simp

/-! ## The path to the target -/

/-- The positions of the cached path to the target of an objective. -/
structure HasPath (o : BlockObjective) (r : Record) (root v : Nat) (w : List Nat) : Prop where
  target_eq : o.target = r.target v
  pathTo_eq : o.graph.pathTo o.target = .ok (w.map r.target)
  isFirstShortest : IsFirstShortest r.links root v w

theorem exists_hasPath (h : Graph.ofRecord r = .ok o.graph) :
    ∃ root v w, r.nodes[root]? = some rootBlock ∧ o.HasPath r root v w := by
  obtain ⟨v, hpos⟩ := Option.isSome_iff_exists.1 o.mem
  obtain ⟨hv, heq⟩ := Graph.vertex_of_position? hpos
  obtain ⟨-, hroot, -, -, -, hblocks, -⟩ := Graph.ofRecord_eq_ok h
  rw [Graph.vertex_eq_target h] at heq
  rw [Graph.size, hblocks] at hv
  obtain ⟨c, hc, rfl, hpath⟩ := Graph.exists_climb h hv
  refine ⟨o.graph.root, c.vertex, c.path, Graph.getElem?_of_idxOf? hroot, heq.symm, ?_, Graph.isFirstShortest_path h hc⟩
  rw [← heq, hpath]

namespace HasPath
variable (h : o.HasPath r root v w)
include h

theorem climb_eq : o.graph.climb o.target = w.reverse.map r.target := by
  obtain ⟨i, -, hi⟩ := bind_eq_ok.1 h.pathTo_eq
  rw [List.map_reverse, ← Except.ok.inj hi, List.reverse_reverse]

theorem approachLevel_eq (covered : Target → Bool) :
    o.graph.approachLevel o.target covered = .ok ((o.graph.climb o.target).findIdx covered) := by
  rw [Graph.approachLevel, h.pathTo_eq, h.climb_eq, List.map_reverse]
  rfl

theorem exists_climb_cons : ∃ above, o.graph.climb o.target = o.target :: above := by
  obtain ⟨init, rfl⟩ := List.getLast?_eq_some_iff.1 h.isFirstShortest.isWalk.getLast?_eq
  rw [h.climb_eq, h.target_eq]
  simp

theorem fitness_of_target (ho : c.get? o.target = some d) : o.fitness c = normalize d := by
  obtain ⟨above, hclimb⟩ := h.exists_climb_cons
  unfold fitness
  rw [hclimb]
  simp [fitnessAlong, ho]

theorem fitness_of_unrecorded (hnone : ∀ a ∈ w, c.get? (r.target a) = none) : o.fitness c = maxFitness := by
  unfold fitness
  rw [h.climb_eq]
  apply fitnessAlong_of_unrecorded
  simpa using hnone

theorem fitness_of_nearest (ho : c.get? o.target = none) (hw : w = before ++ a :: after)
    (ha : c.get? (r.target a) = some d) (hafter : ∀ b ∈ after, c.get? (r.target b) = none) :
    o.fitness c = Float.ofNat after.length + normalize d := by
  have hclimb : o.graph.climb o.target =
      after.reverse.map r.target ++ r.target a :: before.reverse.map r.target := by
    rw [h.climb_eq, hw]
    simp
  have hpos : ¬ 0 + (after.reverse.map r.target).length = 0 := by
    -- without hops the nearest vertex is the target
    intro hzero
    obtain rfl : after = [] := by simpa using hzero
    obtain rfl : v = a := by
      have hlast := h.isFirstShortest.isWalk.getLast?_eq
      rw [hw, List.getLast?_concat] at hlast
      exact (Option.some.inj hlast).symm
    rw [← h.target_eq, ho] at ha
    exact nomatch ha
  unfold fitness
  rw [hclimb, fitnessAlong_of_recorded ha (by simpa using hafter), if_neg hpos]
  simp

theorem fitness_congr (heq : ∀ a ∈ w, c'.get? (r.target a) = c.get? (r.target a)) : o.fitness c' = o.fitness c := by
  unfold fitness
  rw [h.climb_eq]
  apply fitnessAlong_congr
  simpa using heq

/-- Looking a distance up by the level never leaves the path, and it never is missing. -/
theorem fitnessByLevel_eq (missing : Float) (c : Coverage) : o.fitnessByLevel missing c = .ok (o.fitness c) := by
  rcases ho : c.get? o.target with _ | d
  · by_cases hrecorded : ∃ a ∈ w, c.get? (r.target a) ≠ none
    · obtain ⟨before, a, after, hw, ha, hafter⟩ := exists_last hrecorded
      obtain ⟨d, ha⟩ := Option.ne_none_iff_exists'.1 ha
      have hafter' : ∀ b ∈ after, c.get? (r.target b) = none := fun b hb => not_not.1 (hafter b hb)
      have hlen : (w.map r.target).length = before.length + (after.length + 1) := by
        rw [List.length_map, hw, List.length_append, List.length_cons]
      have hget : (w.map r.target)[(w.map r.target).length - after.length - 1]? = some (r.target a) := by
        rw [show (w.map r.target).length - after.length - 1 = (before.map r.target).length by
          rw [hlen, List.length_map]
          omega]
        rw [hw, List.map_append, List.map_cons, List.getElem?_append_right (Nat.le_refl _), Nat.sub_self]
        rfl
      rw [h.fitness_of_nearest ho hw ha hafter', fitnessByLevel_of_path missing h.pathTo_eq ho
        (findIdx_nearest hw ha hafter'), if_neg (by omega), if_neg (by omega), hget]
      simp [ha]
    · have hnone : ∀ a ∈ w, c.get? (r.target a) = none := by simpa using hrecorded
      rw [h.fitness_of_unrecorded hnone, fitnessByLevel_of_path missing h.pathTo_eq ho (findIdx_unrecorded hnone),
        if_pos rfl]
  · rw [h.fitness_of_target ho]
    simp [fitnessByLevel, ho]

end HasPath

end BlockObjective

/-! ## Main statement -/

theorem unit_of_mem_map_target (h : t ∈ w.map r.target) : t.unit = r.unit := by
  obtain ⟨i, -, rfl⟩ := List.mem_map.1 h
  rfl

/-- The fitness of a vertex of a graph, for every coverage map. A recorded vertex has its normalized distance. Otherwise
the recorded vertex of its cached path that is nearest by the edges of the graph decides, and without one the fitness is
`maxFitness`. Looking the distance up by the approach level gives the same, whatever a missing distance is taken to be.
Nothing but the vertices of the path matters. -/
theorem fitness_nearest (r : Record) (o : BlockObjective) (h : Graph.ofRecord r = .ok o.graph) : ∃ root v w,
    r.nodes[root]? = some rootBlock ∧ o.target = r.target v ∧ o.graph.pathTo o.target = .ok (w.map r.target) ∧
    IsFirstShortest r.links root v w ∧ ∀ c : Coverage,
      (∀ d, c.get? o.target = some d → o.fitness c = normalize d) ∧
      (c.get? o.target = none → (∃ a ∈ w, c.get? (r.target a) ≠ none) → ∃ a n d,
        IsNearest r.links (fun a => c.get? (r.target a) ≠ none) v w a n ∧ c.get? (r.target a) = some d ∧
        o.fitness c = Float.ofNat n + normalize d) ∧
      ((∀ a ∈ w, c.get? (r.target a) = none) → o.fitness c = maxFitness) ∧
      (∀ missing, o.fitnessByLevel missing c = .ok (o.fitness c)) ∧
      (∀ c' : Coverage, (∀ a ∈ w, c'.get? (r.target a) = c.get? (r.target a)) → o.fitness c' = o.fitness c) ∧
      ∀ t d, t.unit ≠ r.unit ∨ t ∉ w.map r.target → o.fitness (c.record t d) = o.fitness c := by
  obtain ⟨root, v, w, hroot, hpath⟩ := BlockObjective.exists_hasPath h
  refine ⟨root, v, w, hroot, hpath.target_eq, hpath.pathTo_eq, hpath.isFirstShortest, fun c => ?_⟩
  refine ⟨fun d => hpath.fitness_of_target, fun ho hrecorded => ?_, hpath.fitness_of_unrecorded,
    fun missing => hpath.fitnessByLevel_eq missing c, fun c' => hpath.fitness_congr, fun t d ht => ?_⟩
  · obtain ⟨before, a, after, hw, ha, hafter⟩ := exists_last hrecorded
    obtain ⟨d, hd⟩ := Option.ne_none_iff_exists'.1 ha
    have hnearest := hpath.isFirstShortest
    rw [hw] at hnearest
    refine ⟨a, after.length, d, hw ▸ hnearest.isNearest ha hafter, hd, ?_⟩
    exact hpath.fitness_of_nearest ho hw hd fun b hb => not_not.1 (hafter b hb)
  · have hoff : t ∉ w.map r.target := by
      rcases ht with hunit | hoff
      · exact fun hmem => hunit (unit_of_mem_map_target hmem)
      · exact hoff
    apply hpath.fitness_congr
    intro a ha
    apply Coverage.get?_record_of_ne
    rintro rfl
    exact hoff (List.mem_map_of_mem ha)

/-- An execution that came as far as block 1, and to a block of another unit. -/
def atBlockOne : Coverage := .ofList [(.root "f", 0), (⟨"g", 5⟩, 0), (⟨"f", 1⟩, 4), (⟨"f", 1⟩, 3), (⟨"f", 3⟩, 0)]

/-- Block 5 is two edges behind block 1; block 3 is nearer, but not on its path. -/
theorem fitness_nearest_crossedRecord : ∃ o : BlockObjective, Graph.ofRecord crossedRecord = .ok o.graph ∧
    o.target = ⟨"f", 5⟩ ∧ (o.fitness atBlockOne == 2.75) = true ∧
    (∀ missing, o.fitnessByLevel missing atBlockOne = .ok (o.fitness atBlockOne)) ∧
    o.fitness (atBlockOne.record ⟨"g", 4⟩ 0) = o.fitness atBlockOne ∧ o.fitness .empty = maxFitness := by
  have hrun : ((Graph.ofRecord crossedRecord).toOption.map fun g => (g.contains ⟨"f", 5⟩,
      BlockObjective.fitnessAlong atBlockOne 0 (g.climb ⟨"f", 5⟩) == 2.75)) = some (true, true) := by
    decide +kernel
  obtain ⟨g, hg, hrun⟩ := Option.map_eq_some_iff.1 hrun
  rw [toOption_eq_some] at hg
  obtain ⟨hmem, hfitness⟩ := Prod.mk.inj hrun
  obtain ⟨root, v, w, -, -, -, -, hall⟩ := fitness_nearest crossedRecord ⟨g, ⟨"f", 5⟩, hmem⟩ hg
  obtain ⟨-, -, -, hlevel, -, hoff⟩ := hall atBlockOne
  obtain ⟨-, -, hnone, -⟩ := hall .empty
  exact ⟨⟨g, ⟨"f", 5⟩, hmem⟩, hg, rfl, hfitness, hlevel, hoff ⟨"g", 4⟩ 0 (Or.inl (by decide)), hnone fun _ _ => rfl⟩

end CoverSearch
