import CoverSearch.Proofs.Ranking.Comparisons
import CoverSearch.Proofs.Ranking.Density
import CoverSearch.Proofs.Ranking.Evaluation
import CoverSearch.Search.Evolution

/-!
# Nothing is looked up out of range

Ranking and survival look up rows, columns and slots by their positions without asking whether these are there. Here the
same survival is written down with a check of every position. It gives the same individuals for every population, so a
position out of range is never met.

* `bestRow?`, `preferenceSort?`, `fillUp?` : the ranking of a matrix with its positions checked;
* `preferenceSort?_eq`, `fillUp?_eq` : no check fails;
* `Search.takeOut?`, `Search.survive?` : the survival; `Search.survive?_eq` : it is the one without checks.
-/

namespace CoverSearch

variable {m : Matrix} {size i c : Nat}

/-! ## Ranking -/

/-- The first row that is least in a column, where every entry is looked up at a checked position. -/
def bestRow? (m : Matrix) (column : Nat) : Except Fault Nat :=
  m.allRows.foldlM (fun best i => do
    let x ← m.value? i column
    let y ← m.value? best column
    return if x < y then i else best) 0

/-- The uncovered columns and the fronts of all rows, with the positions checked. -/
def preferenceSort? (m : Matrix) : Except Fault Preference :=
  if m.isEmpty then .ok {}
  else do
    let scored ← m.allColumns.mapM fun c => do
      let best ← bestRow? m c
      return (c, best, ← m.value? best c)
    let above := scored.filter fun x => 0 < x.2.2
    let first := (above.map (·.2.1)).eraseDups
    let rest ← nonDominatedSort? pareto m (m.allRows.filter fun i => !first.contains i) (above.map (·.1))
    return { fronts := (if first.isEmpty then [] else [first]) ++ rest.fronts, uncovered := above.map (·.1) }

/-- The rows selected so far and those of further fronts, with the positions checked. -/
def fillUp? (m : Matrix) (size : Nat) (selected : List Nat) : (fronts : List (List Nat)) → Except Fault (List Nat)
  | [] => .ok selected
  | front :: fronts =>
    if size ≤ selected.length then .ok selected
    else do
      let (_, sorted) ← svdSort? m front m.allColumns
      fillUp? m size (selected ++ sorted.take (size - selected.length)) fronts

theorem value?_eq (hi : i < m.size) (hc : c < m.columns) : m.value? i c = .ok (m.value i c) := by
  rw [Matrix.value?, if_pos (by simp [hi, hc])]

/-- The best row so far is a row, so both compared entries are there. -/
theorem bestRow?_eq (hc : c < m.columns) : bestRow? m c = .ok (bestRow m c) := by
  have hfold : ∀ (rows : List Nat) (best : Nat), (∀ i ∈ rows, i < m.size) → (rows ≠ [] → best < m.size) →
      rows.foldlM (fun best i => do
        let x ← m.value? i c
        let y ← m.value? best c
        return if x < y then i else best) best =
      (.ok (rows.foldl (fun best i => if m.value i c < m.value best c then i else best) best) : Except Fault Nat) := by
    intro rows
    induction rows with
    | nil => exact fun _ _ _ => rfl
    | cons i rows ih =>
      intro best hrows hbest
      obtain ⟨hi, hrows⟩ := List.forall_mem_cons.1 hrows
      have hbest := hbest (List.cons_ne_nil _ _)
      rw [List.foldlM_cons, value?_eq hi hc, value?_eq hbest hc]
      refine ih _ hrows fun _ => ?_
      split
      · exact hi
      · exact hbest
  refine hfold m.allRows 0 (fun i hi => List.mem_range.1 hi) fun hne => Nat.pos_of_ne_zero fun hsize => hne ?_
  rw [Matrix.allRows, hsize, List.range_zero]

theorem preferenceSort?_eq (m : Matrix) : preferenceSort? m = .ok (preferenceSort pareto m) := by
  unfold preferenceSort? preferenceSort
  split <;> rename_i hempty
  · rfl
  have hsize : 0 < m.size := Array.size_pos_iff.2 fun h => hempty (by rw [Matrix.isEmpty, h]; rfl)
  have hscored : m.allColumns.mapM (fun c => do
      let best ← bestRow? m c
      return (c, best, ← m.value? best c)) =
        .ok (m.allColumns.map fun c => (c, bestRow m c, m.value (bestRow m c) c)) := by
    refine mapM_eq_ok_map fun c hc => ?_
    rw [bestRow?_eq (List.mem_range.1 hc)]
    show (do return (c, bestRow m c, ← m.value? (bestRow m c) c) : Except Fault _) = _
    rw [value?_eq (bestRow_lt hsize c) (List.mem_range.1 hc)]
    rfl
  have habove : ((m.allColumns.map fun c => (c, bestRow m c, m.value (bestRow m c) c)).filter fun x => 0 < x.2.2) =
      (uncoveredColumns m).map fun c => (c, bestRow m c, m.value (bestRow m c) c) := by
    rw [List.filter_map]
    rfl
  rw [hscored]
  show (do
    let rest ← nonDominatedSort? pareto m _ _
    return _ : Except Fault Preference) = _
  simp only [habove, List.map_map, Function.comp_def, List.map_id']
  exact bind_eq_ok.2 ⟨_, nonDominatedSort?_unpreferred m, rfl⟩

theorem fillUp?_eq {selected : List Nat} {fronts : List (List Nat)} (h : ∀ front ∈ fronts, ∀ i ∈ front, i < m.size) :
    fillUp? m size selected fronts = .ok (fillUp m size selected fronts) := by
  induction fronts generalizing selected with
  | nil => rfl
  | cons front fronts ih =>
    obtain ⟨hfront, hfronts⟩ := List.forall_mem_cons.1 h
    rw [fillUp?, fillUp]
    split
    · rfl
    · have hcolumns : ∀ c ∈ m.allColumns, c < m.columns := fun c hc => List.mem_range.1 hc
      rw [svdSort?_eq hfront hcolumns]
      exact ih hfronts

/-- What is selected comes from the fronts. -/
theorem lt_of_mem_fillUp {selected : List Nat} {fronts : List (List Nat)} (hselected : ∀ i ∈ selected, i < m.size)
    (h : ∀ front ∈ fronts, ∀ i ∈ front, i < m.size) : ∀ i ∈ fillUp m size selected fronts, i < m.size := by
  induction fronts generalizing selected with
  | nil => exact hselected
  | cons front fronts ih =>
    obtain ⟨hfront, hfronts⟩ := List.forall_mem_cons.1 h
    rw [fillUp]
    split
    · exact hselected
    · refine ih (fun i hi => ?_) hfronts
      rcases List.mem_append.1 hi with hi | hi
      · exact hselected i hi
      · exact hfront i ((svdSort_perm _ _ _).mem_iff.1 (List.mem_of_mem_take hi))

/-! ## Survival -/

namespace Search

variable {C : Type} {slots : Array (Option C)} {order : List Nat}

/-- The individuals in the slots at some positions, each taken out of its slot, with the positions checked. -/
def takeOut? (slots : Array (Option C)) : (order : List Nat) → Except Fault (List C)
  | [] => .ok []
  | i :: order =>
    match slots[i]? with
    | none => .error .outOfRange
    | some taken => do return taken.toList ++ (← takeOut? (slots.setIfInBounds i none) order)

/-- The individuals that survive, with every position checked that is looked up on the way. -/
def survive? (objectives : Array (Objective C)) (active : List Nat) (size : Nat) (population : List C) :
    Except Fault (List C) := do
  let m ← Matrix.evaluate population objectives active
  let p ← preferenceSort? m
  let order ← fillUp? m size [] p.fronts
  takeOut? (population.map some).toArray order

theorem takeOut?_eq (h : ∀ i ∈ order, i < slots.size) : takeOut? slots order = .ok (takeOut slots order) := by
  induction order generalizing slots with
  | nil => rfl
  | cons i order ih =>
    obtain ⟨hi, horder⟩ := List.forall_mem_cons.1 h
    rw [takeOut?, takeOut, Array.getElem?_eq_getElem hi]
    show (do return slots[i].toList ++ (← takeOut? (slots.setIfInBounds i none) order) : Except Fault _) = _
    rw [ih (by rwa [Array.size_setIfInBounds])]
    rfl

/-- No check fails but that for the ranked objectives, which is made without the others as well. -/
theorem survive?_eq (objectives : Array (Objective C)) (active : List Nat) (size : Nat) (population : List C) :
    survive? objectives active size population = survive objectives active size population := by
  unfold survive? survive
  rcases hm : Matrix.evaluate population objectives active with e | m
  · rfl
  have hfronts : ∀ front ∈ (preferenceSort pareto m).fronts, ∀ i ∈ front, i < m.size :=
    fun front hfront i hi => lt_of_mem_preferenceSort hfront hi
  have hslots : ∀ i ∈ survivors pareto m size, i < (population.map some).toArray.size := by
    intro i hi
    have hlt := lt_of_mem_fillUp (fun _ h => absurd h List.not_mem_nil) hfronts i hi
    rwa [(Matrix.evaluates_of_evaluate hm).size_eq, ← List.length_map some, ← List.size_toArray] at hlt
  refine bind_eq_ok.2 ⟨m, rfl, bind_eq_ok.2 ⟨_, preferenceSort?_eq m, bind_eq_ok.2 ⟨_, fillUp?_eq hfronts, ?_⟩⟩⟩
  exact takeOut?_eq hslots

end Search

end CoverSearch
