import CoverSearch.Frontier
import CoverSearch.Proofs.Success

/-!
# The frontier as it moves

An objective is passed when it is archived and all its dependents are visited. The invariant of the frontier is that
roots are visited, and that every visited objective is still active or has been passed; so an objective that is not
archived can only be reached past an active one.

* `Frontier.expand_induction` : induction over an expansion; `Frontier.Expands` : what it does to the marks;
* `Frontier.Guards` : the invariant, for active objectives and a set of archived ones;
* `Frontier.guards_initial`, `Frontier.Guards.pass`, `Frontier.Guards.update` : its start and its steps;
* `Frontier.uncovered_update` : an update leaves no covered objective active;
* `exists_of_coveredBy`, `Policy.exists_of_update_dynamic` : the same questions asked through a policy.
-/

namespace CoverSearch.Frontier

variable {f f' : Frontier} {visited visited' : Array Bool} {dependents : Array (List Nat)}
  {covered : Nat → Except Fault Bool} {pending fresh active active' : List Nat} {archived archived' : Nat → Prop}
  {d i t n : Nat}

/-- An objective that has been visited. -/
def IsMarked (visited : Array Bool) (i : Nat) : Prop := visited[i]? = some true

/-- All dependents of an objective have been visited. -/
def IsOpen (dependents : Array (List Nat)) (visited : Array Bool) (i : Nat) : Prop :=
  ∃ next, dependents[i]? = some next ∧ ∀ d ∈ next, IsMarked visited d

/-- What `expand` does: marks stay, the pending objectives are marked, and what is newly marked is active and not
covered, or is passed over, being covered and all its dependents marked. -/
structure Expands (dependents : Array (List Nat)) (covered : Nat → Except Fault Bool) (visited : Array Bool)
    (pending : List Nat) (visited' : Array Bool) (fresh : List Nat) : Prop where
  isMarked_of_isMarked : ∀ i, IsMarked visited i → IsMarked visited' i
  isMarked_pending : ∀ d ∈ pending, IsMarked visited' d
  newly_marked : ∀ i, IsMarked visited' i → IsMarked visited i ∨ i ∈ fresh ∨
    covered i = .ok true ∧ IsOpen dependents visited' i
  uncovered_fresh : ∀ d ∈ fresh, covered d = .ok false

/-- Roots are visited, and a visited objective is active or has been passed. -/
structure Guards (f : Frontier) (active : List Nat) (archived : Nat → Prop) : Prop where
  isMarked_roots : ∀ r ∈ f.roots, IsMarked f.visited r
  active_or_passed : ∀ i, IsMarked f.visited i → i ∈ active ∨
    archived i ∧ IsOpen f.dependents f.visited i

/-! ## Marks -/

theorem isMarked_iff (hd : d < visited.size) : IsMarked visited d ↔ visited[d] = true := by
  rw [IsMarked, Array.getElem?_eq_getElem hd, Option.some_inj]

theorem isMarked_set (hd : d < visited.size) : IsMarked (visited.set d true) i ↔ i = d ∨ IsMarked visited i := by
  rw [IsMarked, IsMarked, Array.getElem?_set]
  split <;> rename_i h
  · simp [h]
  · simp [Ne.symm h]

theorem not_isMarked_replicate : ¬ IsMarked (Array.replicate n false) i := by
  rw [IsMarked, Array.getElem?_replicate]
  split <;> simp

theorem isMarked_of_mark (h : mark visited d = .ok visited') : IsMarked visited' i ↔ i = d ∨ IsMarked visited i := by
  rw [mark] at h
  split at h <;> rename_i hd
  · obtain rfl := Except.ok.inj h
    exact isMarked_set hd
  · exact nomatch h

/-- Marking some objectives in turn. -/
theorem isMarked_of_foldlM_mark {l : List Nat} (h : l.foldlM mark visited = .ok visited') :
    IsMarked visited' i ↔ i ∈ l ∨ IsMarked visited i := by
  induction l generalizing visited with
  | nil =>
    obtain rfl := pure_eq_ok.1 h
    simp
  | cons d l ih =>
    rw [List.foldlM_cons] at h
    obtain ⟨v, hv, h⟩ := bind_eq_ok.1 h
    rw [ih h, isMarked_of_mark hv, List.mem_cons, ← or_assoc, or_comm (a := i ∈ l)]

theorem IsOpen.mono (h : IsOpen dependents visited i) (hmono : ∀ i, IsMarked visited i → IsMarked visited' i) :
    IsOpen dependents visited' i := by
  obtain ⟨next, hnext, hall⟩ := h
  exact ⟨next, hnext, fun d hd => hmono d (hall d hd)⟩

/-! ## Expansion -/

namespace Expands

theorem nil (dependents : Array (List Nat)) (covered : Nat → Except Fault Bool) (visited : Array Bool) :
    Expands dependents covered visited [] visited [] :=
  ⟨fun _ h => h, fun _ h => absurd h List.not_mem_nil, fun _ h => Or.inl h, fun _ h => absurd h List.not_mem_nil⟩

/-- An objective that is visited already. -/
theorem skip (hd : IsMarked visited d) (h : Expands dependents covered visited pending visited' fresh) :
    Expands dependents covered visited (d :: pending) visited' fresh where
  isMarked_of_isMarked := h.isMarked_of_isMarked
  isMarked_pending := List.forall_mem_cons.2 ⟨h.isMarked_of_isMarked d hd, h.isMarked_pending⟩
  newly_marked := h.newly_marked
  uncovered_fresh := h.uncovered_fresh

/-- An objective that becomes active. -/
theorem enter (hd : d < visited.size) (hcovered : covered d = .ok false)
    (h : Expands dependents covered (visited.set d true) pending visited' fresh) :
    Expands dependents covered visited (d :: pending) visited' (d :: fresh) where
  isMarked_of_isMarked := fun i hi => h.isMarked_of_isMarked i ((isMarked_set hd).2 (Or.inr hi))
  isMarked_pending := List.forall_mem_cons.2
    ⟨h.isMarked_of_isMarked d ((isMarked_set hd).2 (Or.inl rfl)), h.isMarked_pending⟩
  newly_marked := by
    intro i hi
    rcases h.newly_marked i hi with hi | hi | hi
    · rcases (isMarked_set hd).1 hi with rfl | hi
      · exact Or.inr (Or.inl List.mem_cons_self)
      · exact Or.inl hi
    · exact Or.inr (Or.inl (List.mem_cons_of_mem d hi))
    · exact Or.inr (Or.inr hi)
  uncovered_fresh := List.forall_mem_cons.2 ⟨hcovered, h.uncovered_fresh⟩

/-- A covered objective, which is passed over for its dependents. -/
theorem passOver {next : List Nat} (hd : d < visited.size) (hcovered : covered d = .ok true)
    (hnext : dependents[d]? = some next)
    (h : Expands dependents covered (visited.set d true) (next ++ pending) visited' fresh) :
    Expands dependents covered visited (d :: pending) visited' fresh where
  isMarked_of_isMarked := fun i hi => h.isMarked_of_isMarked i ((isMarked_set hd).2 (Or.inr hi))
  isMarked_pending := List.forall_mem_cons.2
    ⟨h.isMarked_of_isMarked d ((isMarked_set hd).2 (Or.inl rfl)),
      fun e he => h.isMarked_pending e (List.mem_append_right next he)⟩
  newly_marked := by
    intro i hi
    rcases h.newly_marked i hi with hi | hi | hi
    · rcases (isMarked_set hd).1 hi with rfl | hi
      · exact Or.inr (Or.inr ⟨hcovered, next, hnext,
          fun e he => h.isMarked_pending e (List.mem_append_left pending he)⟩)
      · exact Or.inl hi
    · exact Or.inr (Or.inl hi)
    · exact Or.inr (Or.inr hi)
  uncovered_fresh := h.uncovered_fresh

end Expands

/-- What holds of nothing pending, and is kept when the first pending objective is skipped, enters or is passed over,
holds of an expansion that succeeds. -/
theorem expand_induction {P : Array Bool → List Nat → List Nat → Prop} (hnil : P visited' [] [])
    (hskip : ∀ visited d pending fresh, IsMarked visited d → P visited pending fresh → P visited (d :: pending) fresh)
    (henter : ∀ visited d pending fresh (hd : d < visited.size), ¬ IsMarked visited d → covered d = .ok false →
      P (visited.set d true) pending fresh → P visited (d :: pending) (d :: fresh))
    (hpassOver : ∀ visited d pending fresh next (hd : d < visited.size), ¬ IsMarked visited d → covered d = .ok true →
      dependents[d]? = some next → P (visited.set d true) (next ++ pending) fresh → P visited (d :: pending) fresh)
    (h : expand dependents covered visited pending = .ok (visited', fresh)) : P visited pending fresh := by
  induction visited, pending using expand.induct dependents covered generalizing fresh with
  | case1 visited =>
    rw [expand] at h
    obtain ⟨rfl, rfl⟩ := ok_pair_inj h
    exact hnil
  | case2 visited d pending hd hv ih =>
    rw [expand, dif_pos hd, dif_pos hv] at h
    exact hskip visited d pending fresh ((isMarked_iff hd).2 hv) (ih h)
  | case3 visited d pending hd hv e he =>
    rw [expand, dif_pos hd, dif_neg hv, he] at h
    cases h
  | case4 visited d pending hd hv hcovered ih =>
    rw [expand, dif_pos hd, dif_neg hv, hcovered] at h
    obtain ⟨⟨v, entered⟩, hrest, h⟩ := bind_eq_ok.1 h
    obtain ⟨rfl, rfl⟩ := ok_pair_inj h
    exact henter visited d pending entered hd (mt (isMarked_iff hd).1 hv) hcovered (ih hrest)
  | case5 visited d pending hd hv hcovered hnone =>
    rw [expand, dif_pos hd, dif_neg hv, hcovered] at h
    simp only [hnone] at h
    cases h
  | case6 visited d pending hd hv hcovered next hnext ih =>
    rw [expand, dif_pos hd, dif_neg hv, hcovered] at h
    simp only [hnext] at h
    exact hpassOver visited d pending fresh next hd (mt (isMarked_iff hd).1 hv) hcovered hnext (ih h)
  | case7 visited d pending hd =>
    rw [expand, dif_neg hd] at h
    cases h

theorem expands_of_expand (h : expand dependents covered visited pending = .ok (visited', fresh)) :
    Expands dependents covered visited pending visited' fresh := by
  refine expand_induction (P := fun visited pending fresh => Expands dependents covered visited pending visited' fresh)
    (.nil dependents covered visited') ?_ ?_ ?_ h
  · exact fun _ _ _ _ hmarked h => h.skip hmarked
  · exact fun _ _ _ _ hd _ hcovered h => h.enter hd hcovered
  · exact fun _ _ _ _ _ hd _ hcovered hnext h => h.passOver hd hcovered hnext

/-- A covered objective leaves, and what its dependents lead to enters behind the rest. -/
theorem exists_expand_of_pass (h : f.pass covered active t = .ok (f', active', n)) : ∃ next visited fresh,
    f.dependents[t]? = some next ∧ expand f.dependents covered f.visited next = .ok (visited, fresh) ∧
      f' = { f with visited } ∧ active' = active.filter (· != t) ++ fresh ∧ n = fresh.length := by
  rw [pass] at h
  rcases hnext : f.dependents[t]? with _ | next <;> rw [hnext] at h
  · cases h
  · obtain ⟨⟨visited, fresh⟩, hexpand, h⟩ := bind_eq_ok.1 h
    obtain ⟨rfl, rfl, rfl⟩ := ok_triple_inj h
    exact ⟨next, visited, fresh, rfl, hexpand, rfl, rfl, rfl⟩

/-! ## The invariant -/

/-- At first the roots are active, and nothing else is visited. -/
theorem guards_initial (h : f.initial n = .ok (f', active)) (archived : Nat → Prop) :
    f'.roots = f.roots ∧ f'.dependents = f.dependents ∧ f'.Guards active archived := by
  obtain ⟨visited, hvisited, h⟩ := bind_eq_ok.1 h
  obtain ⟨rfl, rfl⟩ := ok_pair_inj h
  have hmarked : ∀ i, IsMarked visited i ↔ i ∈ f.roots := fun i =>
    (isMarked_of_foldlM_mark hvisited).trans (or_iff_left not_isMarked_replicate)
  exact ⟨rfl, rfl, fun r hr => (hmarked r).2 hr, fun i hi => Or.inl ((hmarked i).1 hi)⟩

namespace Guards

/-- More may be archived at any time. -/
theorem mono (h : f.Guards active archived) (hmono : ∀ i, archived i → archived' i) : f.Guards active archived' where
  isMarked_roots := h.isMarked_roots
  active_or_passed := fun i hi => (h.active_or_passed i hi).imp_right (And.imp_left (hmono i))

/-- An archived objective leaves. -/
theorem pass (h : f.Guards active archived) (hcovered : ∀ i, covered i = .ok true → archived i) (ht : archived t)
    (hpass : f.pass covered active t = .ok (f', active', n)) :
    f'.roots = f.roots ∧ f'.dependents = f.dependents ∧ f'.Guards active' archived := by
  obtain ⟨next, visited, fresh, hnext, hexpand, rfl, rfl, -⟩ := exists_expand_of_pass hpass
  have hexpands := expands_of_expand hexpand
  refine ⟨rfl, rfl, fun r hr => hexpands.isMarked_of_isMarked r (h.isMarked_roots r hr), fun i hi => ?_⟩
  -- what was active stays so unless it is `t`, whose dependents are the pending objectives
  rcases hexpands.newly_marked i hi with hi | hi | ⟨hi, hopen⟩
  · rcases h.active_or_passed i hi with hi | ⟨hi, hopen⟩
    · by_cases hit : i = t
      · exact Or.inr ⟨hit ▸ ht, next, hit ▸ hnext, hexpands.isMarked_pending⟩
      · exact Or.inl (List.mem_append_left _ (List.mem_filter.2 ⟨hi, bne_iff_ne.2 hit⟩))
    · exact Or.inr ⟨hi, hopen.mono hexpands.isMarked_of_isMarked⟩
  · exact Or.inl (List.mem_append_right _ hi)
  · exact Or.inr ⟨hcovered i hi, hopen⟩

theorem passAll (h : f.Guards active archived) (hcovered : ∀ i, covered i = .ok true → archived i)
    {added : Nat} {snapshot : List Nat} (hpass : Frontier.passAll covered f active added snapshot = .ok (f', active', n)) :
    f'.roots = f.roots ∧ f'.dependents = f.dependents ∧ f'.Guards active' archived := by
  induction snapshot generalizing f active added with
  | nil =>
    obtain ⟨rfl, rfl, rfl⟩ := ok_triple_inj hpass
    exact ⟨rfl, rfl, h⟩
  | cons t snapshot ih =>
    obtain ⟨_ | _, ht, hrest⟩ := bind_eq_ok.1 hpass
    · exact ih h hrest
    · obtain ⟨⟨g, active₁, fresh⟩, hone, hrest⟩ := bind_eq_ok.1 hrest
      obtain ⟨hroots, hdependents, hguards⟩ := h.pass hcovered (hcovered t ht) hone
      obtain ⟨hroots', hdependents', hguards'⟩ := ih hguards hrest
      exact ⟨hroots'.trans hroots, hdependents'.trans hdependents, hguards'⟩

/-- A population has been run, and all that it covers is archived. -/
theorem update (h : f.Guards active archived) (hcovered : ∀ i, covered i = .ok true → archived i)
    (hupdate : f.update covered active = .ok (f', active', n)) :
    f'.roots = f.roots ∧ f'.dependents = f.dependents ∧ f'.Guards active' archived := h.passAll hcovered hupdate

end Guards

/-! ## Active objectives -/

theorem uncovered_passAll {added : Nat} {snapshot : List Nat}
    (hpass : passAll covered f active added snapshot = .ok (f', active', n))
    (h : ∀ t ∈ active, t ∈ snapshot ∨ covered t = .ok false) : ∀ t ∈ active', covered t = .ok false := by
  induction snapshot generalizing f active added with
  | nil =>
    obtain ⟨-, rfl, -⟩ := ok_triple_inj hpass
    exact fun t ht => (h t ht).resolve_left List.not_mem_nil
  | cons t snapshot ih =>
    obtain ⟨_ | _, ht, hrest⟩ := bind_eq_ok.1 hpass
    · refine ih hrest fun u hu => ?_
      rcases h u hu with hu | hu
      · rcases List.mem_cons.1 hu with rfl | hu
        · exact Or.inr ht
        · exact Or.inl hu
      · exact Or.inr hu
    · -- `t` leaves, and what enters for it is not covered
      obtain ⟨⟨g, active₁, fresh⟩, hone, hrest⟩ := bind_eq_ok.1 hrest
      refine ih hrest fun u hu => ?_
      obtain ⟨next, visited, entered, -, hexpand, -, rfl, -⟩ := exists_expand_of_pass hone
      rcases List.mem_append.1 hu with hu | hu
      · obtain ⟨hu, hne⟩ := List.mem_filter.1 hu
        exact (h u hu).imp_left fun hu => (List.mem_cons.1 hu).resolve_left (bne_iff_ne.1 hne)
      · exact Or.inr ((expands_of_expand hexpand).uncovered_fresh u hu)

/-- Every objective that was active has been looked at, so none that is covered stays. -/
theorem uncovered_update (h : f.update covered active = .ok (f', active', n)) : ∀ t ∈ active', covered t = .ok false :=
  uncovered_passAll h fun _ ht => Or.inl ht

end CoverSearch.Frontier

/-! ## Policies -/

namespace CoverSearch

theorem lt_of_coveredBy {C : Type} {objectives : Array (Objective C)} {population : List C} {t : Nat} {b : Bool}
    (h : coveredBy objectives population t = .ok b) : t < objectives.size := by
  rw [coveredBy] at h
  rcases ho : objectives[t]? with _ | o <;> rw [ho] at h
  · exact nomatch h
  · exact (Array.getElem?_eq_some_iff.1 ho).1

theorem exists_of_coveredBy {C : Type} {objectives : Array (Objective C)} {population : List C} {t : Nat}
    (h : coveredBy objectives population t = .ok true) :
    ∃ o, objectives[t]? = some o ∧ ∃ c ∈ population, o.covers c = true := by
  rw [coveredBy] at h
  rcases ho : objectives[t]? with _ | o <;> rw [ho] at h
  · exact nomatch h
  · exact ⟨o, rfl, List.any_eq_true.1 (Except.ok.inj h)⟩

theorem exists_of_coveredBy_false {C : Type} {objectives : Array (Objective C)} {population : List C} {t : Nat}
    (h : coveredBy objectives population t = .ok false) :
    ∃ o, objectives[t]? = some o ∧ ∀ c ∈ population, o.covers c = false := by
  rw [coveredBy] at h
  rcases ho : objectives[t]? with _ | o <;> rw [ho] at h
  · exact nomatch h
  · exact ⟨o, rfl, fun c hc => Bool.eq_false_iff.2 (List.any_eq_false.1 (Except.ok.inj h) c hc)⟩

namespace Policy

variable {f : Frontier} {policy : Policy} {active active' : List Nat} {n : Nat}

theorem exists_of_initial_dynamic (h : (dynamic f).initial n = .ok (policy, active)) :
    ∃ f', policy = dynamic f' ∧ f.initial n = .ok (f', active) := by
  obtain ⟨⟨f', active'⟩, hinitial, hrest⟩ := bind_eq_ok.1 h
  obtain ⟨rfl, rfl⟩ := ok_pair_inj hrest
  exact ⟨f', rfl, hinitial⟩

theorem exists_of_update_dynamic {C : Type} {objectives : Array (Objective C)} {population : List C}
    (h : (dynamic f).update objectives population active = .ok (policy, active', n)) :
    ∃ f', policy = dynamic f' ∧ f.update (coveredBy objectives population) active = .ok (f', active', n) := by
  obtain ⟨⟨f', active₁, added⟩, hupdate, hpolicy⟩ := bind_eq_ok.1 h
  obtain ⟨rfl, rfl, rfl⟩ := ok_triple_inj hpolicy
  exact ⟨f', rfl, hupdate⟩

theorem active_lt_of_initial (h : policy.initial n = .ok (.all, active)) : ∀ t ∈ active, t < n := by
  cases policy with
  | all =>
    obtain ⟨-, rfl⟩ := ok_pair_inj h
    exact fun t ht => List.mem_range.1 ht
  | dynamic f =>
    obtain ⟨f', hall, -⟩ := exists_of_initial_dynamic h
    exact nomatch hall

/-- A frontier looks at every objective that it leaves active, so each of them exists. -/
theorem active_lt {C : Type} {objectives : Array (Objective C)} {population : List C} {policy' : Policy}
    (h : policy.update objectives population active = .ok (policy', active', n))
    (hall : policy = .all → ∀ t ∈ active, t < objectives.size) : ∀ t ∈ active', t < objectives.size := by
  cases policy with
  | all =>
    obtain ⟨-, rfl, -⟩ := ok_triple_inj h
    exact hall rfl
  | dynamic f =>
    obtain ⟨f', -, hupdate⟩ := exists_of_update_dynamic h
    exact fun t ht => lt_of_coveredBy (Frontier.uncovered_update hupdate t ht)

end Policy

end CoverSearch
