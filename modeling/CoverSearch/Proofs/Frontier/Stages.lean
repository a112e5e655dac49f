import CoverSearch.Case
import CoverSearch.Proofs.Frontier.Update
import Mathlib.Data.List.Chain
import Mathlib.Data.List.Dedup

/-!
# A frontier never returns

An objective enters the active ones only when it is visited for the first time, and marks are never cleared. So an
objective that a frontier has left stays inactive, whatever later populations cover, and all that were ever active can
be counted as they enter.

* `Frontier.Enters` : objectives that are visited for the first time; `Frontier.enters_of_expand` finds them;
* `Frontier.exists_entered_of_update` : what one population does to the active objectives;
* `Frontier.Ready` : nothing is out of range; `Frontier.Ready.exists_update` : then a move does not fail;
* `Frontier.Stage`, `Frontier.run` : a frontier that is moved by one population after the other;
* `Frontier.Stage.Follows` : one move; `Frontier.Stage.Precedes` : what it leaves behind for good;
* `Frontier.run_follows` : the result for every run.
-/

namespace CoverSearch.Frontier

variable {C : Type} {f f' : Frontier} {visited visited' visited'' : Array Bool} {dependents : Array (List Nat)}
  {covered : Nat → Except Fault Bool} {pending snapshot entered entered' active active' ever : List Nat}
  {objectives : Array (Objective C)} {population : List C} {populations : List (List C)} {added count d t n : Nat}

/-! ## Entering -/

/-- Marks stay, and each of the entered objectives is marked for the first time. -/
structure Enters (visited : Array Bool) (entered : List Nat) (visited' : Array Bool) : Prop where
  isMarked_of_isMarked : ∀ i, IsMarked visited i → IsMarked visited' i
  nodup : entered.Nodup
  not_isMarked : ∀ t ∈ entered, ¬ IsMarked visited t
  isMarked : ∀ t ∈ entered, IsMarked visited' t

namespace Enters

theorem refl (visited : Array Bool) : Enters visited [] visited :=
  ⟨fun _ h => h, List.nodup_nil, fun _ h => absurd h List.not_mem_nil, fun _ h => absurd h List.not_mem_nil⟩

theorem trans (h : Enters visited entered visited') (h' : Enters visited' entered' visited'') :
    Enters visited (entered ++ entered') visited'' where
  isMarked_of_isMarked := fun i hi => h'.isMarked_of_isMarked i (h.isMarked_of_isMarked i hi)
  nodup := by
    rw [List.nodup_append]
    refine ⟨h.nodup, h'.nodup, fun t ht u hu htu => ?_⟩
    exact h'.not_isMarked u hu (htu ▸ h.isMarked t ht)
  not_isMarked := by
    intro t ht hmarked
    rcases List.mem_append.1 ht with ht | ht
    · exact h.not_isMarked t ht hmarked
    · exact h'.not_isMarked t ht (h.isMarked_of_isMarked t hmarked)
  isMarked := by
    intro t ht
    rcases List.mem_append.1 ht with ht | ht
    · exact h'.isMarked_of_isMarked t (h.isMarked t ht)
    · exact h'.isMarked t ht

/-- An objective is marked without entering. -/
theorem set (hd : d < visited.size) : Enters visited [] (visited.set d true) where
  isMarked_of_isMarked := fun _ hi => (isMarked_set hd).2 (Or.inr hi)
  nodup := List.nodup_nil
  not_isMarked := fun _ h => absurd h List.not_mem_nil
  isMarked := fun _ h => absurd h List.not_mem_nil

theorem set_singleton (hd : d < visited.size) (hv : ¬ IsMarked visited d) :
    Enters visited [d] (visited.set d true) where
  isMarked_of_isMarked := fun _ hi => (isMarked_set hd).2 (Or.inr hi)
  nodup := List.nodup_singleton d
  not_isMarked := fun _ ht => List.mem_singleton.1 ht ▸ hv
  isMarked := fun _ ht => (isMarked_set hd).2 (Or.inl (List.mem_singleton.1 ht))

end Enters

theorem enters_of_expand (h : expand dependents covered visited pending = .ok (visited', entered)) :
    Enters visited entered visited' := by
  refine expand_induction (P := fun visited _ entered => Enters visited entered visited') (.refl visited') ?_ ?_ ?_ h
  · exact fun _ _ _ _ _ h => h
  · exact fun _ _ _ _ hd hunmarked _ h => (Enters.set_singleton hd hunmarked).trans h
  · exact fun _ _ _ _ _ hd _ _ _ h => (Enters.set hd).trans h

/-- Whether an objective stays active when some are looked at: it does unless it is one of them and covered. -/
def stays (covered : Nat → Except Fault Bool) (snapshot : List Nat) (t : Nat) : Bool :=
  !snapshot.contains t || (covered t).toOption == some false

theorem stays_cons_of_uncovered (ht : covered t = .ok false) (u : Nat) :
    stays covered (t :: snapshot) u = stays covered snapshot u := by
  unfold stays
  rw [List.contains_cons]
  by_cases hut : u = t
  · simp [hut, ht, Except.toOption]
  · simp [beq_eq_false_iff_ne.2 hut]

theorem stays_cons_of_covered (ht : covered t = .ok true) (u : Nat) :
    stays covered (t :: snapshot) u = (stays covered snapshot u && u != t) := by
  unfold stays
  rw [List.contains_cons]
  by_cases hut : u = t
  · simp [hut, ht, Except.toOption]
  · simp [bne, beq_eq_false_iff_ne.2 hut]

/-- What is looked at has been visited, so nothing that enters meanwhile is among it. -/
theorem exists_entered_of_passAll (hsnapshot : ∀ t ∈ snapshot, IsMarked f.visited t)
    (h : passAll covered f active added snapshot = .ok (f', active', n)) : ∃ entered,
    Enters f.visited entered f'.visited ∧ active' = active.filter (stays covered snapshot) ++ entered ∧
      n = added + entered.length := by
  induction snapshot generalizing f active added with
  | nil =>
    obtain ⟨rfl, rfl, rfl⟩ := ok_triple_inj h
    have hall : active.filter (stays covered []) = active := List.filter_eq_self.2 fun _ _ => rfl
    exact ⟨[], .refl _, by rw [hall, List.append_nil], rfl⟩
  | cons t snapshot ih =>
    obtain ⟨_ | _, ht, hrest⟩ := bind_eq_ok.1 h
    · obtain ⟨entered, henters, rfl, rfl⟩ := ih (fun u hu => hsnapshot u (List.mem_cons_of_mem t hu)) hrest
      rw [List.filter_congr fun u _ => stays_cons_of_uncovered ht u]
      exact ⟨entered, henters, rfl, rfl⟩
    · obtain ⟨⟨g, active₁, fresh⟩, hone, hrest⟩ := bind_eq_ok.1 hrest
      obtain ⟨next, visited, entered₁, -, hexpand, rfl, rfl, rfl⟩ := exists_expand_of_pass hone
      have henters₁ := enters_of_expand hexpand
      have hmarked : ∀ u ∈ snapshot, IsMarked visited u := fun u hu =>
        henters₁.isMarked_of_isMarked u (hsnapshot u (List.mem_cons_of_mem t hu))
      obtain ⟨entered₂, henters₂, rfl, rfl⟩ := ih hmarked hrest
      refine ⟨entered₁ ++ entered₂, henters₁.trans henters₂, ?_, by rw [List.length_append]; omega⟩
      have hentered : entered₁.filter (stays covered snapshot) = entered₁ := by
        rw [List.filter_eq_self]
        intro u hu
        have hnot : u ∉ snapshot := fun hmem => henters₁.not_isMarked u hu (hsnapshot u (List.mem_cons_of_mem t hmem))
        simp [stays, hnot]
      rw [List.filter_append, hentered, List.filter_filter, List.append_assoc,
        List.filter_congr fun u _ => stays_cons_of_covered ht u]

/-- The covered ones among visited objectives leave, and unvisited ones enter. -/
theorem exists_entered_of_update (hactive : ∀ t ∈ active, IsMarked f.visited t)
    (h : f.update covered active = .ok (f', active', n)) : ∃ entered, Enters f.visited entered f'.visited ∧
      active' = active.filter (stays covered active) ++ entered ∧ n = entered.length := by
  obtain ⟨entered, henters, hactive', hn⟩ := exists_entered_of_passAll hactive h
  exact ⟨entered, henters, hactive', hn.trans (Nat.zero_add _)⟩

/-! ## Nothing is out of range -/

/-- Whatever a frontier can come to look at is an objective and has a list of dependents and a mark. -/
structure Ready (f : Frontier) (count : Nat) (active : List Nat) : Prop where
  size_le : f.dependents.size ≤ f.visited.size
  dependents_lt : ∀ next ∈ f.dependents, ∀ d ∈ next, d < count ∧ d < f.dependents.size
  active_lt : ∀ t ∈ active, t < count ∧ t < f.dependents.size

theorem exists_expand (hsize : dependents.size ≤ visited.size)
    (hdependents : ∀ next ∈ dependents, ∀ d ∈ next, d < count ∧ d < dependents.size)
    (hcovered : ∀ d < count, ∃ b, covered d = .ok b) (hpending : ∀ d ∈ pending, d < count ∧ d < dependents.size) :
    ∃ visited' entered, expand dependents covered visited pending = .ok (visited', entered) ∧
      visited'.size = visited.size ∧ ∀ t ∈ entered, t < count ∧ t < dependents.size := by
  induction visited, pending using expand.induct dependents covered with
  | case1 visited =>
    rw [expand]
    exact ⟨visited, [], rfl, rfl, fun _ h => absurd h List.not_mem_nil⟩
  | case2 visited d pending hd hv ih =>
    rw [expand, dif_pos hd, dif_pos hv]
    exact ih hsize fun e he => hpending e (List.mem_cons_of_mem d he)
  | case3 visited d pending hd hv e he =>
    obtain ⟨b, hb⟩ := hcovered d (hpending d List.mem_cons_self).1
    cases he.symm.trans hb
  | case4 visited d pending hd hv hfalse ih =>
    obtain ⟨visited', entered, hrest, hsize', hentered⟩ :=
      ih (by simpa using hsize) fun e he => hpending e (List.mem_cons_of_mem d he)
    rw [expand, dif_pos hd, dif_neg hv, hfalse, hrest]
    refine ⟨visited', d :: entered, rfl, by simpa using hsize', ?_⟩
    exact List.forall_mem_cons.2 ⟨hpending d List.mem_cons_self, hentered⟩
  | case5 visited d pending hd hv htrue hnone =>
    have hlt := (hpending d List.mem_cons_self).2
    exact absurd hnone (by simp [hlt])
  | case6 visited d pending hd hv htrue next hnext ih =>
    obtain ⟨visited', entered, hrest, hsize', hentered⟩ := ih (by simpa using hsize) fun e he => by
      rcases List.mem_append.1 he with he | he
      · exact hdependents next (Array.mem_of_getElem? hnext) e he
      · exact hpending e (List.mem_cons_of_mem d he)
    rw [expand, dif_pos hd, dif_neg hv, htrue]
    simp only [hnext]
    exact ⟨visited', entered, hrest, by simpa using hsize', hentered⟩
  | case7 visited d pending hd =>
    exact absurd ((hpending d List.mem_cons_self).2.trans_le hsize) hd

theorem exists_foldlM_mark (visited : Array Bool) {l : List Nat} (hl : ∀ r ∈ l, r < visited.size) :
    ∃ visited', l.foldlM mark visited = .ok visited' ∧ visited'.size = visited.size := by
  induction l generalizing visited with
  | nil => exact ⟨visited, rfl, rfl⟩
  | cons r l ih =>
    obtain ⟨hr, hl⟩ := List.forall_mem_cons.1 hl
    have hsize : (visited.set r true).size = visited.size := Array.size_set hr
    obtain ⟨visited', hrest, hsize'⟩ := ih (visited.set r true) fun r' hr' => hsize ▸ hl r' hr'
    rw [List.foldlM_cons, mark, dif_pos hr]
    exact ⟨visited', hrest, hsize'.trans hsize⟩

namespace Ready

/-- At first nothing but the roots is looked at. -/
theorem exists_initial (hroots : ∀ r ∈ f.roots, r < count ∧ r < f.dependents.size)
    (hdependents : ∀ next ∈ f.dependents, ∀ d ∈ next, d < count ∧ d < f.dependents.size) :
    ∃ f', f.initial count = .ok (f', f.roots) ∧ f'.Ready count f.roots := by
  obtain ⟨visited, hvisited, hsize⟩ := exists_foldlM_mark
    (Array.replicate (max count f.dependents.size) false) (l := f.roots) fun r hr => by
      have := hroots r hr
      rw [Array.size_replicate]
      omega
  have hle : f.dependents.size ≤ visited.size := by
    rw [hsize, Array.size_replicate]
    exact Nat.le_max_right _ _
  exact ⟨{ f with visited }, bind_eq_ok.2 ⟨visited, hvisited, rfl⟩, hle, hdependents, hroots⟩

theorem exists_pass (h : f.Ready count active) (hcovered : ∀ d < count, ∃ b, covered d = .ok b)
    (ht : t < f.dependents.size) :
    ∃ f' active' n, f.pass covered active t = .ok (f', active', n) ∧ f'.Ready count active' ∧
      f'.dependents = f.dependents := by
  have hnext := Array.getElem?_eq_getElem ht
  obtain ⟨visited, entered, hexpand, hsize, hentered⟩ := exists_expand h.size_le h.dependents_lt hcovered
    (h.dependents_lt _ (Array.getElem_mem ht))
  rw [pass, hnext]
  refine ⟨_, _, _, bind_eq_ok.2 ⟨_, hexpand, rfl⟩, ⟨hsize ▸ h.size_le, h.dependents_lt, fun u hu => ?_⟩, rfl⟩
  rcases List.mem_append.1 hu with hu | hu
  · exact h.active_lt u (List.mem_filter.1 hu).1
  · exact hentered u hu

theorem exists_passAll (h : f.Ready count active) (hcovered : ∀ d < count, ∃ b, covered d = .ok b)
    (hsnapshot : ∀ t ∈ snapshot, t < count ∧ t < f.dependents.size) (added : Nat) :
    ∃ f' active' n, passAll covered f active added snapshot = .ok (f', active', n) ∧ f'.Ready count active' := by
  induction snapshot generalizing f active added with
  | nil => exact ⟨f, active, added, rfl, h⟩
  | cons t snapshot ih =>
    obtain ⟨ht, hsnapshot⟩ := List.forall_mem_cons.1 hsnapshot
    obtain ⟨_ | _, hb⟩ := hcovered t ht.1
    · obtain ⟨f', active', n, hrest, hready⟩ := ih h hsnapshot added
      exact ⟨f', active', n, bind_eq_ok.2 ⟨false, hb, hrest⟩, hready⟩
    · obtain ⟨g, active₁, fresh, hpass, hready, hdependents⟩ := h.exists_pass hcovered ht.2
      obtain ⟨f', active', n, hrest, hready'⟩ := ih hready (hdependents ▸ hsnapshot) (added + fresh)
      exact ⟨f', active', n, bind_eq_ok.2 ⟨true, hb, bind_eq_ok.2 ⟨_, hpass, hrest⟩⟩, hready'⟩

/-- A move does not fail. -/
theorem exists_update (h : f.Ready count active) (hcovered : ∀ d < count, ∃ b, covered d = .ok b) :
    ∃ f' active' n, f.update covered active = .ok (f', active', n) ∧ f'.Ready count active' :=
  h.exists_passAll hcovered h.active_lt 0

end Ready

/-! ## Runs -/

/-- A frontier between two populations. -/
structure Stage where
  frontier : Frontier
  active : List Nat
  /-- The number that the last move has returned. -/
  added : Nat := 0

/-- The frontier at the start of a run. -/
def Stage.start (f : Frontier) (count : Nat) : Except Fault Stage := do
  let (frontier, active) ← f.initial count
  return { frontier, active }

/-- The frontier after a population has been run. -/
def Stage.move (objectives : Array (Objective C)) (s : Stage) (population : List C) : Except Fault Stage := do
  let (frontier, active, added) ← s.frontier.update (coveredBy objectives population) s.active
  return { frontier, active, added }

/-- The stages that follow on one, a population each. -/
def Stage.moves (objectives : Array (Objective C)) (s : Stage) : List (List C) → Except Fault (List Stage)
  | [] => .ok []
  | population :: populations => do
    let s' ← s.move objectives population
    return s' :: (← moves objectives s' populations)

/-- The stages of a run, from the start on. -/
def run (f : Frontier) (objectives : Array (Objective C)) (populations : List (List C)) :
    Except Fault (List Stage) := do
  let s ← Stage.start f objectives.size
  return s :: (← s.moves objectives populations)

namespace Stage

variable {s s' : Stage} {stages : List Stage}

/-- The visited objectives of a stage. -/
def Visited (s : Stage) (t : Nat) : Prop := IsMarked s.frontier.visited t

/-- What a population does: some active objectives leave, and others enter behind them, visited for the first time and
each once; their number is returned. -/
def Follows (s s' : Stage) : Prop :=
  ∃ kept entered, Enters s.frontier.visited entered s'.frontier.visited ∧ kept.Sublist s.active ∧
    s'.active = kept ++ entered ∧ s'.added = entered.length

/-- What is visited stays visited, and among that nothing becomes active again. -/
structure Precedes (s s' : Stage) : Prop where
  visited_of_visited : ∀ t, s.Visited t → s'.Visited t
  inactive_of_inactive : ∀ t, s.Visited t → t ∉ s.active → t ∉ s'.active

/-- Active objectives are visited, and active once. -/
structure Valid (s : Stage) : Prop where
  nodup : s.active.Nodup
  visited : ∀ t ∈ s.active, s.Visited t

theorem Precedes.trans {s'' : Stage} (h : s.Precedes s') (h' : s'.Precedes s'') : s.Precedes s'' where
  visited_of_visited := fun t ht => h'.visited_of_visited t (h.visited_of_visited t ht)
  inactive_of_inactive := fun t ht hinactive =>
    h'.inactive_of_inactive t (h.visited_of_visited t ht) (h.inactive_of_inactive t ht hinactive)

/-! ### One move -/

theorem Follows.precedes (h : s.Follows s') : s.Precedes s' := by
  obtain ⟨kept, entered, henters, hkept, hactive, -⟩ := h
  refine ⟨henters.isMarked_of_isMarked, fun t ht hinactive hmem => ?_⟩
  rw [hactive] at hmem
  rcases List.mem_append.1 hmem with hmem | hmem
  · exact hinactive (hkept.mem hmem)
  · exact henters.not_isMarked t hmem ht

theorem Valid.follows (hs : s.Valid) (h : s.Follows s') : s'.Valid := by
  obtain ⟨kept, entered, henters, hkept, hactive, -⟩ := h
  have hstay : ∀ t ∈ kept, s.Visited t := fun t ht => hs.visited t (hkept.mem ht)
  constructor
  · rw [hactive, List.nodup_append]
    refine ⟨hs.nodup.sublist hkept, henters.nodup, fun t ht u hu htu => ?_⟩
    exact henters.not_isMarked u hu (htu ▸ hstay t ht)
  · intro t ht
    rw [hactive] at ht
    rcases List.mem_append.1 ht with ht | ht
    · exact henters.isMarked_of_isMarked t (hstay t ht)
    · exact henters.isMarked t ht

theorem follows_of_move (hs : s.Valid) (h : s.move objectives population = .ok s') : s.Follows s' := by
  obtain ⟨⟨frontier, active, added⟩, hupdate, h⟩ := bind_eq_ok.1 h
  obtain rfl := Except.ok.inj h
  obtain ⟨entered, henters, hactive, hadded⟩ := exists_entered_of_update hs.visited hupdate
  exact ⟨_, entered, henters, List.filter_sublist, hactive, hadded⟩

theorem valid_of_start (hroots : f.roots.Nodup) (h : start f count = .ok s) :
    s.Valid ∧ s.active = f.roots ∧ s.added = 0 := by
  obtain ⟨⟨frontier, active⟩, hinitial, h⟩ := bind_eq_ok.1 h
  obtain rfl := Except.ok.inj h
  obtain ⟨-, -, hguards⟩ := guards_initial hinitial fun _ => True
  obtain ⟨visited, hvisited, hinitial⟩ := bind_eq_ok.1 hinitial
  obtain ⟨rfl, rfl⟩ := ok_pair_inj hinitial
  exact ⟨⟨hroots, hguards.isMarked_roots⟩, rfl, rfl⟩

/-! ### All moves -/

instance : Trans Precedes Precedes Precedes := ⟨Precedes.trans⟩

theorem follows_of_moves (hs : s.Valid) (h : s.moves objectives populations = .ok stages) :
    stages.length = populations.length ∧ (∀ s' ∈ stages, s'.Valid) ∧ (s :: stages).IsChain Follows := by
  induction populations generalizing s stages with
  | nil =>
    obtain rfl := Except.ok.inj h
    exact ⟨rfl, fun _ h => absurd h List.not_mem_nil, .singleton s⟩
  | cons population populations ih =>
    obtain ⟨s', hmove, h⟩ := bind_eq_ok.1 h
    obtain ⟨rest, hrest, h⟩ := bind_eq_ok.1 h
    obtain rfl := Except.ok.inj h
    have hfollows := follows_of_move hs hmove
    have hs' := hs.follows hfollows
    obtain ⟨hlength, hvalid, hchain⟩ := ih hs' hrest
    exact ⟨congrArg (· + 1) hlength, List.forall_mem_cons.2 ⟨hs', hvalid⟩, .cons_cons hfollows hchain⟩

/-- All that were ever active, in the order in which they have entered. -/
theorem exists_ever (hever : ever.Nodup) (hvisited : ∀ t ∈ ever, s.Visited t) (hactive : ∀ t ∈ s.active, t ∈ ever)
    (h : (s :: stages).IsChain Follows) : ∃ later, (ever ++ later).Nodup ∧
      later.length = total (stages.map Stage.added) ∧
      ∀ t, t ∈ ever ++ later ↔ t ∈ ever ∨ ∃ s' ∈ stages, t ∈ s'.active := by
  induction stages generalizing s ever with
  | nil => exact ⟨[], by simpa using hever, rfl, by simp⟩
  | cons s' stages ih =>
    obtain ⟨⟨kept, entered, henters, hkept, hactive', hadded⟩, hchain⟩ := List.isChain_cons_cons.1 h
    have hever' : (ever ++ entered).Nodup := by
      rw [List.nodup_append]
      refine ⟨hever, henters.nodup, fun t ht u hu htu => ?_⟩
      exact henters.not_isMarked u hu (htu ▸ hvisited t ht)
    have hvisited' : ∀ t ∈ ever ++ entered, s'.Visited t := by
      intro t ht
      rcases List.mem_append.1 ht with ht | ht
      · exact henters.isMarked_of_isMarked t (hvisited t ht)
      · exact henters.isMarked t ht
    have hmem : ∀ t, t ∈ ever ++ entered ↔ t ∈ ever ∨ t ∈ s'.active := by
      intro t
      rw [hactive', List.mem_append, List.mem_append]
      constructor
      · exact Or.imp_right Or.inr
      · rintro (ht | ht | ht)
        · exact Or.inl ht
        · exact Or.inl (hactive t (hkept.mem ht))
        · exact Or.inr ht
    obtain ⟨later, hnodup, hlength, hlater⟩ := ih hever' hvisited' (fun t ht => (hmem t).2 (Or.inr ht)) hchain
    rw [List.append_assoc] at hnodup hlater
    refine ⟨entered ++ later, hnodup, ?_, fun t => ?_⟩
    · rw [List.length_append, List.map_cons, total_cons, hlength, hadded]
    · rw [hlater, hmem]
      simp [or_assoc]

/-- A move of a frontier with nothing out of range does not fail, so nor do all. -/
theorem exists_moves (hs : s.frontier.Ready objectives.size s.active) (populations : List (List C)) :
    ∃ stages, s.moves objectives populations = .ok stages := by
  induction populations generalizing s with
  | nil => exact ⟨[], rfl⟩
  | cons population populations ih =>
    have hcovered : ∀ d < objectives.size, ∃ b, coveredBy objectives population d = .ok b := by
      intro d hd
      rw [coveredBy, Array.getElem?_eq_getElem hd]
      exact ⟨_, rfl⟩
    obtain ⟨frontier, active, n, hupdate, hready⟩ := hs.exists_update hcovered
    obtain ⟨rest, hrest⟩ := ih (s := ⟨frontier, active, n⟩) hready
    exact ⟨_, bind_eq_ok.2 ⟨_, bind_eq_ok.2 ⟨_, hupdate, rfl⟩, bind_eq_ok.2 ⟨rest, hrest, rfl⟩⟩⟩

end Stage

/-! ## Main statement -/

/-- A run of a frontier with distinct roots. It does not fail if nothing is out of range. At every stage the active
objectives are visited and distinct; a population lets objectives enter that have never been visited, each once; what is
visited stays visited, and what is visited but not active never becomes active again, whatever is covered later. The
roots and the numbers returned add up to the objectives that were ever active. -/
theorem run_follows (f : Frontier) (objectives : Array (Objective C)) (populations : List (List C))
    (hroots : f.roots.Nodup) :
    ((∀ r ∈ f.roots, r < objectives.size ∧ r < f.dependents.size) →
      (∀ next ∈ f.dependents, ∀ d ∈ next, d < objectives.size ∧ d < f.dependents.size) →
        ∃ stages, f.run objectives populations = .ok stages) ∧
    ∀ stages, f.run objectives populations = .ok stages →
      stages.length = populations.length + 1 ∧ (∃ s, stages.head? = some s ∧ s.active = f.roots ∧ s.added = 0) ∧
      (∀ s ∈ stages, s.Valid) ∧ stages.IsChain Stage.Follows ∧ stages.Pairwise Stage.Precedes ∧
      f.roots.length + total (stages.map Stage.added) = (stages.flatMap Stage.active).dedup.length := by
  refine ⟨fun hrange hdependents => ?_, fun stages h => ?_⟩
  · obtain ⟨f', hinitial, hready⟩ := Ready.exists_initial hrange hdependents
    obtain ⟨stages, hmoves⟩ := Stage.exists_moves (s := ⟨f', f.roots, 0⟩) hready populations
    exact ⟨_, bind_eq_ok.2 ⟨_, bind_eq_ok.2 ⟨_, hinitial, rfl⟩, bind_eq_ok.2 ⟨stages, hmoves, rfl⟩⟩⟩
  · obtain ⟨s, hstart, h⟩ := bind_eq_ok.1 h
    obtain ⟨rest, hmoves, h⟩ := bind_eq_ok.1 h
    obtain rfl := Except.ok.inj h
    obtain ⟨hs, hactive, hadded⟩ := Stage.valid_of_start hroots hstart
    obtain ⟨hlength, hvalid, hchain⟩ := Stage.follows_of_moves hs hmoves
    have hprecedes : (s :: rest).Pairwise Stage.Precedes :=
      List.isChain_iff_pairwise.1 (hchain.imp fun _ _ h => h.precedes)
    refine ⟨congrArg (· + 1) hlength, ⟨s, rfl, hactive, hadded⟩, List.forall_mem_cons.2 ⟨hs, hvalid⟩, hchain,
      hprecedes, ?_⟩
    obtain ⟨later, hnodup, hlength, hlater⟩ := Stage.exists_ever hs.nodup hs.visited (fun _ h => h) hchain
    have hperm : (((s :: rest).flatMap Stage.active).dedup).Perm (s.active ++ later) := by
      rw [List.perm_ext_iff_of_nodup (List.nodup_dedup _) hnodup]
      intro t
      rw [List.mem_dedup, hlater]
      simp
    rw [hperm.length_eq, List.length_append, hlength, hactive, List.map_cons, total_cons, hadded, Nat.zero_add]

/-- Two objectives that wait for a third one, and that it waits for in turn. -/
def ring (visited : Array Bool) : Frontier := ⟨[0], #[[1, 2], [0], [0]], visited⟩

def ringObjectives : Array (Objective Case) := #[Case.objective 0, Case.objective 1, Case.objective 2]

/-- Individuals that cover the first and the second objective, and nobody. -/
def ringPopulations : List (List Case) :=
  [[{ id := 0, size := 1, fitness := [0, 1, 1] }], [{ id := 1, size := 1, fitness := [1, 0, 1] }], []]

/-- The root is covered at first and not again; when the objective is covered that leads back to it, it does not
return. -/
theorem run_follows_ring : (ring #[]).roots.Nodup ∧ ∃ stages,
    (ring #[]).run ringObjectives ringPopulations = .ok stages ∧
    stages.map Stage.active = [[0], [1, 2], [2], [2]] ∧ stages.Pairwise Stage.Precedes ∧
    (stages.flatMap Stage.active).dedup.length = 3 := by
  have hasked : ∀ population ∈ ringPopulations, ∀ t < 3,
      (coveredBy ringObjectives population t).toOption = some (population.any fun c => c.id == t) := by decide +kernel
  have hcovered : ∀ population ∈ ringPopulations, ∀ t < 3,
      coveredBy ringObjectives population t = .ok (population.any fun c => c.id == t) :=
    fun population hpopulation t ht => toOption_eq_some.1 (hasked population hpopulation t ht)
  simp only [ringPopulations, List.forall_mem_cons] at hcovered
  obtain ⟨hfirst, hsecond, hthird, -⟩ := hcovered
  -- both dependents enter for the root, then one of them leaves, then nothing happens
  have hmoves : Stage.moves ringObjectives ⟨ring #[true, false, false], [0], 0⟩ ringPopulations =
      .ok [⟨ring #[true, true, true], [1, 2], 2⟩, ⟨ring #[true, true, true], [2], 0⟩,
        ⟨ring #[true, true, true], [2], 0⟩] := by
    simp [ringPopulations, Stage.moves, Stage.move, ring, Frontier.update, passAll, pass, expand, hfirst, hsecond,
      hthird, bind, Except.bind, pure, Except.pure]
  have hrun : (ring #[]).run ringObjectives ringPopulations = .ok _ :=
    bind_eq_ok.2 ⟨⟨ring #[true, false, false], [0], 0⟩, rfl, bind_eq_ok.2 ⟨_, hmoves, rfl⟩⟩
  obtain ⟨-, hruns⟩ := run_follows (ring #[]) ringObjectives ringPopulations (by decide)
  obtain ⟨-, -, -, -, hprecedes, hcount⟩ := hruns _ hrun
  exact ⟨by decide, _, hrun, rfl, hprecedes, hcount.symm⟩

end CoverSearch.Frontier
