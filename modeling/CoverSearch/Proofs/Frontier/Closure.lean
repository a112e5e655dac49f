import CoverSearch.Proofs.Frontier.Stages
import Mathlib.Data.Set.Card

/-!
# What a population opens

A population that covers an active objective opens what depends on it, and what depends on this in turn as far as that
is covered too. However the dependents run in circles, an update visits the least set that holds what was visited before
and, with each covered objective, its dependents. One half of this is that an expansion visits nothing outside such a
set. The other half needs an invariant of the states that a run reaches: an objective that is visited and no longer
active has been passed, so its dependents are visited already.

* `Frontier.isCovered` : whether a population covers an objective;
* `Frontier.IsClosed` : a set that holds the dependents of its covered objectives;
* `Frontier.mem_of_expand`, `Frontier.mem_of_passAll` : nothing outside a closed set is visited;
* `Frontier.isLeast_update`, `Frontier.exists_entered_iff` : the visited and the active objectives after an update;
* `Frontier.Stage.Settled` : the invariant; `Frontier.Stage.settled_of_start`, `Frontier.Stage.Settled.exists_move` :
  its start and its step;
* `Frontier.Stage.Opens` : what a population does; `Frontier.run_opens` : it does so in every state of every run.
-/

namespace CoverSearch.Frontier

variable {C : Type} {f f' : Frontier} {visited visited' : Array Bool} {dependents : Array (List Nat)}
  {covered : Nat → Except Fault Bool} {pending snapshot fresh active active' : List Nat}
  {objectives : Array (Objective C)} {population : List C} {S : Set Nat} {added count n d t : Nat}

/-! ## Covered objectives -/

/-- Whether some individual of a population covers an objective. -/
def isCovered (objectives : Array (Objective C)) (population : List C) (t : Nat) : Bool :=
  objectives[t]?.any fun o => population.any o.covers

theorem coveredBy_of_lt (ht : t < objectives.size) :
    coveredBy objectives population t = .ok (isCovered objectives population t) := by
  rw [coveredBy, isCovered, Array.getElem?_eq_getElem ht]
  rfl

theorem isCovered_of_coveredBy {b : Bool} (h : coveredBy objectives population t = .ok b) :
    isCovered objectives population t = b :=
  Except.ok.inj ((coveredBy_of_lt (lt_of_coveredBy h)).symm.trans h)

theorem coveredBy_eq_true :
    coveredBy objectives population t = .ok true ↔ isCovered objectives population t = true := by
  refine ⟨isCovered_of_coveredBy, fun h => ?_⟩
  have ht : t < objectives.size := by
    by_contra hnot
    rw [isCovered, Array.getElem?_eq_none (not_lt.1 hnot)] at h
    exact nomatch h
  rw [coveredBy_of_lt ht, h]

/-! ## Closed sets -/

/-- A set that holds, with each covered objective, all its dependents. -/
def IsClosed (dependents : Array (List Nat)) (covered : Nat → Prop) (S : Set Nat) : Prop :=
  ∀ t ∈ S, covered t → ∀ next, dependents[t]? = some next → ∀ d ∈ next, d ∈ S

theorem forall_isMarked_set (hd : d < visited.size) (hmem : d ∈ S) (hvisited : ∀ t, IsMarked visited t → t ∈ S) :
    ∀ t, IsMarked (visited.set d true) t → t ∈ S := by
  intro t ht
  rcases (isMarked_set hd).1 ht with rfl | ht
  · exact hmem
  · exact hvisited t ht

theorem mem_of_expand (hclosed : IsClosed dependents (fun t => covered t = .ok true) S)
    (hvisited : ∀ t, IsMarked visited t → t ∈ S) (hpending : ∀ d ∈ pending, d ∈ S)
    (h : expand dependents covered visited pending = .ok (visited', fresh)) : ∀ t, IsMarked visited' t → t ∈ S := by
  refine expand_induction (P := fun visited pending _ => (∀ t, IsMarked visited t → t ∈ S) → (∀ d ∈ pending, d ∈ S) →
    ∀ t, IsMarked visited' t → t ∈ S) (fun hvisited _ => hvisited) ?_ ?_ ?_ h hvisited hpending
  · intro visited d pending fresh _ ih hvisited hpending
    exact ih hvisited (List.forall_mem_cons.1 hpending).2
  · intro visited d pending fresh hd _ _ ih hvisited hpending
    obtain ⟨hmem, hpending⟩ := List.forall_mem_cons.1 hpending
    exact ih (forall_isMarked_set hd hmem hvisited) hpending
  · -- a covered objective of the set brings its dependents with it
    intro visited d pending fresh next hd _ hcovered hnext ih hvisited hpending
    obtain ⟨hmem, hpending⟩ := List.forall_mem_cons.1 hpending
    refine ih (forall_isMarked_set hd hmem hvisited) fun e he => ?_
    rcases List.mem_append.1 he with he | he
    · exact hclosed d hmem hcovered next hnext e he
    · exact hpending e he

theorem mem_of_passAll (hclosed : IsClosed f.dependents (fun t => covered t = .ok true) S)
    (hvisited : ∀ t, IsMarked f.visited t → t ∈ S) (hsnapshot : ∀ t ∈ snapshot, t ∈ S)
    (h : passAll covered f active added snapshot = .ok (f', active', n)) : ∀ t, IsMarked f'.visited t → t ∈ S := by
  induction snapshot generalizing f active added with
  | nil =>
    obtain ⟨rfl, -, -⟩ := ok_triple_inj h
    exact hvisited
  | cons t snapshot ih =>
    obtain ⟨ht, hsnapshot⟩ := List.forall_mem_cons.1 hsnapshot
    obtain ⟨_ | _, hcovered, hrest⟩ := bind_eq_ok.1 h
    · exact ih hclosed hvisited hsnapshot hrest
    · obtain ⟨⟨g, active₁, entered⟩, hone, hrest⟩ := bind_eq_ok.1 hrest
      obtain ⟨next, visited, fresh, hnext, hexpand, hg, -, -⟩ := exists_expand_of_pass hone
      have hmem : ∀ t, IsMarked g.visited t → t ∈ S :=
        hg ▸ mem_of_expand hclosed hvisited (hclosed t ht hcovered next hnext) hexpand
      have hdependents : IsClosed g.dependents (fun t => covered t = .ok true) S := hg ▸ hclosed
      exact ih hdependents hmem hsnapshot hrest

/-! ## Updates -/

/-- Behind an update, what is visited is active, or it has been visited before or is covered and all its dependents are
visited. -/
theorem Guards.updated (h : f.Guards active fun _ => True) (hupdate : f.update covered active = .ok (f', active', n)) :
    f'.dependents = f.dependents ∧ f'.Guards active' fun t => IsMarked f.visited t ∨ covered t = .ok true := by
  have hpassed : f.Guards active fun t => IsMarked f.visited t ∨ covered t = .ok true :=
    ⟨h.isMarked_roots, fun t ht => (h.active_or_passed t ht).imp_right fun hopen => ⟨Or.inl ht, hopen.2⟩⟩
  exact (hpassed.update (fun _ ht => Or.inr ht) hupdate).2

theorem isLeast_update (h : f.Guards active fun _ => True) (hactive : ∀ t ∈ active, IsMarked f.visited t)
    (hupdate : f.update covered active = .ok (f', active', n)) :
    IsLeast {S | {t | IsMarked f.visited t} ⊆ S ∧ IsClosed f.dependents (fun t => covered t = .ok true) S}
      {t | IsMarked f'.visited t} := by
  obtain ⟨hdependents, hguards⟩ := h.updated hupdate
  obtain ⟨entered, henters, -, -⟩ := exists_entered_of_update hactive hupdate
  refine ⟨⟨henters.isMarked_of_isMarked, fun t ht hcovered next hnext => ?_⟩, ?_⟩
  · rcases hguards.active_or_passed t ht with ht | ⟨-, next', hnext', hall⟩
    · exact nomatch hcovered.symm.trans (uncovered_update hupdate t ht)
    · obtain rfl := Option.some.inj (hnext.symm.trans (hdependents ▸ hnext'))
      exact hall
  · rintro S ⟨hsub, hclosed⟩
    exact fun t ht => mem_of_passAll hclosed hsub (fun u hu => hsub (hactive u hu)) hupdate t ht

theorem filter_stays (hactive : ∀ t ∈ active, t < objectives.size) :
    active.filter (stays (coveredBy objectives population) active) =
      active.filter fun t => !isCovered objectives population t := by
  refine List.filter_congr fun t ht => ?_
  rw [stays, List.contains_iff_mem.2 ht, coveredBy_of_lt (hactive t ht)]
  cases isCovered objectives population t <;> rfl

/-- Behind the active objectives that are not covered come the newly visited ones that are not. -/
theorem exists_entered_iff (h : f.Guards active fun _ => True) (hactive : ∀ t ∈ active, IsMarked f.visited t)
    (hlt : ∀ t ∈ active, t < objectives.size)
    (hupdate : f.update (coveredBy objectives population) active = .ok (f', active', n)) : ∃ entered,
      Enters f.visited entered f'.visited ∧
      active' = active.filter (fun t => !isCovered objectives population t) ++ entered ∧ n = entered.length ∧
      ∀ t, t ∈ entered ↔
        IsMarked f'.visited t ∧ ¬ IsMarked f.visited t ∧ isCovered objectives population t = false := by
  obtain ⟨-, hguards⟩ := h.updated hupdate
  obtain ⟨entered, henters, hactive', hn⟩ := exists_entered_of_update hactive hupdate
  rw [filter_stays hlt] at hactive'
  refine ⟨entered, henters, hactive', hn, fun t => ⟨fun ht => ?_, ?_⟩⟩
  · have huncovered := uncovered_update hupdate t (hactive' ▸ List.mem_append_right _ ht)
    exact ⟨henters.isMarked t ht, henters.not_isMarked t ht, isCovered_of_coveredBy huncovered⟩
  · rintro ⟨hmarked, hnew, hfalse⟩
    rcases hguards.active_or_passed t hmarked with ht | ⟨ht | ht, -⟩
    · rw [hactive'] at ht
      refine (List.mem_append.1 ht).resolve_left fun ht => ?_
      exact hnew (hactive t (List.mem_filter.1 ht).1)
    · exact absurd ht hnew
    · exact nomatch hfalse.symm.trans (isCovered_of_coveredBy ht)

namespace Stage

variable {s s' : Stage} {stages : List Stage}

/-- What a population does to a frontier: it visits the least set that holds what was visited and is closed; the active
objectives that it does not cover stay in their order, and behind them come the newly visited ones that it does not
cover either, each once; their number is returned. -/
structure Opens (dependents : Array (List Nat)) (covered : Nat → Bool) (s s' : Stage) : Prop where
  isLeast : IsLeast {S | {t | s.Visited t} ⊆ S ∧ IsClosed dependents (fun t => covered t = true) S} {t | s'.Visited t}
  mem_active : ∀ t, t ∈ s'.active ↔ (t ∈ s.active ∨ s'.Visited t ∧ ¬ s.Visited t) ∧ covered t = false
  active_eq : ∃ entered, s'.active = s.active.filter (fun t => !covered t) ++ entered ∧ entered.Nodup ∧
    ∀ t ∈ entered, s'.Visited t ∧ ¬ s.Visited t
  added_eq : s'.added = {t | s'.Visited t ∧ ¬ s.Visited t ∧ covered t = false}.ncard

/-- Nothing is out of range, active objectives are visited, and what is visited is active or has been passed. -/
structure Settled (f : Frontier) (count : Nat) (s : Stage) : Prop where
  dependents_eq : s.frontier.dependents = f.dependents
  ready : s.frontier.Ready count s.active
  guards : s.frontier.Guards s.active fun _ => True
  visited : ∀ t ∈ s.active, s.Visited t

theorem settled_of_start (hroots : ∀ r ∈ f.roots, r < count ∧ r < f.dependents.size)
    (hdependents : ∀ next ∈ f.dependents, ∀ d ∈ next, d < count ∧ d < f.dependents.size) :
    ∃ s, start f count = .ok s ∧ s.Settled f count := by
  obtain ⟨f', hinitial, hready⟩ := Ready.exists_initial hroots hdependents
  obtain ⟨hsame, hdeps, hguards⟩ := guards_initial hinitial fun _ => True
  refine ⟨⟨f', f.roots, 0⟩, bind_eq_ok.2 ⟨_, hinitial, rfl⟩, hdeps, hready, hguards, fun r hr => ?_⟩
  exact hguards.isMarked_roots r (hsame ▸ hr)

namespace Settled

theorem opens (hs : s.Settled f objectives.size)
    (hupdate : s.frontier.update (coveredBy objectives population) s.active = .ok (f', active', n)) :
    s.Opens f.dependents (isCovered objectives population) ⟨f', active', n⟩ := by
  have hleast := isLeast_update hs.guards hs.visited hupdate
  obtain ⟨entered, henters, rfl, rfl, hentered⟩ :=
    exists_entered_iff hs.guards hs.visited (fun t ht => (hs.ready.active_lt t ht).1) hupdate
  simp only [coveredBy_eq_true, hs.dependents_eq] at hleast
  refine ⟨hleast, fun t => ?_, ⟨entered, rfl, henters.nodup, fun t ht => ?_⟩, ?_⟩
  · rw [List.mem_append, List.mem_filter, hentered, Bool.not_eq_true', or_and_right, and_assoc]
    rfl
  · exact ⟨henters.isMarked t ht, henters.not_isMarked t ht⟩
  · rw [← List.toFinset_card_of_nodup henters.nodup, ← Set.ncard_coe_finset, List.coe_toFinset]
    exact congrArg Set.ncard (Set.ext hentered)

theorem exists_move (hs : s.Settled f objectives.size) (population : List C) :
    ∃ s', s.move objectives population = .ok s' ∧ s'.Settled f objectives.size ∧
      s.Opens f.dependents (isCovered objectives population) s' := by
  obtain ⟨f', active', n, hupdate, hready⟩ := hs.ready.exists_update fun d hd => ⟨_, coveredBy_of_lt hd⟩
  obtain ⟨hdependents, hguards⟩ := hs.guards.updated hupdate
  obtain ⟨entered, henters, hactive, -⟩ := exists_entered_of_update hs.visited hupdate
  refine ⟨⟨f', active', n⟩, bind_eq_ok.2 ⟨_, hupdate, rfl⟩, ⟨hdependents.trans hs.dependents_eq, hready,
    hguards.mono fun _ _ => trivial, fun t ht => ?_⟩, hs.opens hupdate⟩
  rcases List.mem_append.1 (hactive ▸ ht) with ht | ht
  · exact henters.isMarked_of_isMarked t (hs.visited t (List.mem_filter.1 ht).1)
  · exact henters.isMarked t ht

theorem exists_moves (hs : s.Settled f objectives.size) (populations : List (List C)) :
    ∃ stages, s.moves objectives populations = .ok stages ∧ ∀ s' ∈ stages, s'.Settled f objectives.size := by
  induction populations generalizing s with
  | nil => exact ⟨[], rfl, fun _ h => absurd h List.not_mem_nil⟩
  | cons population populations ih =>
    obtain ⟨s', hmove, hs', -⟩ := hs.exists_move population
    obtain ⟨rest, hrest, hall⟩ := ih hs'
    exact ⟨_, bind_eq_ok.2 ⟨s', hmove, bind_eq_ok.2 ⟨rest, hrest, rfl⟩⟩, List.forall_mem_cons.2 ⟨hs', hall⟩⟩

end Settled

end Stage

/-! ## Main statement -/

/-- A frontier with a list of dependents for each objective and nothing out of range; its roots and dependents may
repeat and run in circles. Every run of it succeeds, and in each state that a run reaches every population does what
`Opens` says. -/
theorem run_opens (f : Frontier) (objectives : Array (Objective C)) (hsize : f.dependents.size = objectives.size)
    (hroots : ∀ r ∈ f.roots, r < objectives.size) (hdependents : ∀ next ∈ f.dependents, ∀ d ∈ next, d < objectives.size)
    (populations : List (List C)) :
    ∃ stages, f.run objectives populations = .ok stages ∧ ∀ s ∈ stages, ∀ population, ∃ s',
      s.move objectives population = .ok s' ∧ s.Opens f.dependents (isCovered objectives population) s' := by
  have hready : ∃ s, Stage.start f objectives.size = .ok s ∧ s.Settled f objectives.size :=
    Stage.settled_of_start (fun r hr => ⟨hroots r hr, hsize ▸ hroots r hr⟩)
      fun next hnext d hd => ⟨hdependents next hnext d hd, hsize ▸ hdependents next hnext d hd⟩
  obtain ⟨s, hstart, hs⟩ := hready
  obtain ⟨rest, hmoves, hrest⟩ := hs.exists_moves populations
  refine ⟨s :: rest, bind_eq_ok.2 ⟨s, hstart, bind_eq_ok.2 ⟨rest, hmoves, rfl⟩⟩, fun s' hs' population => ?_⟩
  have hsettled : s'.Settled f objectives.size := by
    rcases List.mem_cons.1 hs' with rfl | hs'
    · exact hs
    · exact hrest s' hs'
  obtain ⟨s'', hmove, -, hopens⟩ := hsettled.exists_move population
  exact ⟨s'', hmove, hopens⟩

/-- A root that is named twice and controls an objective twice; that one controls itself and leads on to the others,
which run in a circle. -/
def knot : Frontier := new [0, 0] #[[1, 2, 1], [1, 3], [0, 3], [2]]

def knotObjectives : Array (Objective Case) :=
  #[Case.objective 0, Case.objective 1, Case.objective 2, Case.objective 3]

/-- One individual covers the root, another what it controls. -/
def knotPopulation : List Case :=
  [{ id := 0, size := 1, fitness := [0, 1, 1, 1] }, { id := 1, size := 1, fitness := [1, 0, 1, 1] }]

/-- The covered dependent is passed over for its own, which comes in front of the other one. -/
theorem run_opens_knot : knot.dependents.size = knotObjectives.size ∧ (∀ r ∈ knot.roots, r < knotObjectives.size) ∧
    (∀ next ∈ knot.dependents, ∀ d ∈ next, d < knotObjectives.size) ∧
    ∃ s s', knot.run knotObjectives [] = .ok [s] ∧ s.active = [0, 0] ∧
      s.move knotObjectives knotPopulation = .ok s' ∧ s'.active = [3, 2] ∧ s'.added = 2 ∧
      s.Opens knot.dependents (isCovered knotObjectives knotPopulation) s' := by
  have hasked : ∀ t < 4, (coveredBy knotObjectives knotPopulation t).toOption = some (decide (t < 2)) := by
    decide +kernel
  have hcovered : ∀ t < 4, coveredBy knotObjectives knotPopulation t = .ok (decide (t < 2)) :=
    fun t ht => toOption_eq_some.1 (hasked t ht)
  have hdependents : ∀ next ∈ knot.dependents, ∀ d ∈ next, d < knotObjectives.size := by decide
  obtain ⟨stages, hrun, hopens⟩ := run_opens knot knotObjectives rfl (by decide) hdependents []
  have hstart : knot.run knotObjectives [] =
      .ok [⟨⟨[0, 0], knot.dependents, #[true, false, false, false]⟩, [0, 0], 0⟩] := rfl
  obtain rfl := Except.ok.inj (hrun.symm.trans hstart)
  obtain ⟨s', hmove, hs'⟩ := hopens _ List.mem_cons_self knotPopulation
  have hknot : Stage.move knotObjectives ⟨⟨[0, 0], knot.dependents, #[true, false, false, false]⟩, [0, 0], 0⟩
      knotPopulation = .ok ⟨⟨[0, 0], knot.dependents, #[true, true, true, true]⟩, [3, 2], 2⟩ := by
    simp [Stage.move, knot, new, Frontier.update, passAll, pass, expand, hcovered, bind, Except.bind, pure, Except.pure]
  obtain rfl := Except.ok.inj (hmove.symm.trans hknot)
  exact ⟨rfl, by decide, hdependents, _, _, hrun, rfl, hmove, rfl, rfl, hs'⟩

end CoverSearch.Frontier
