import CoverSearch.Coverage
import CoverSearch.Proofs.Value.Order
import Mathlib.Data.Set.Insert

/-!
# What a coverage map keeps of its observations

A map keeps one of the distances observed for a target: no number among them is less, and a NaN is kept only where there
is no number. Which number that is does not depend on the order of the observations, but for the sign of a zero.

* `Coverage.get?_record_self`, `Coverage.get?_record_of_ne` : the distance of a target after one more observation;
* `Double.IsLeastNumber` : what is kept of some doubles; `Double.IsLeastNumber.insert` is one more double,
  `Double.IsLeastNumber.same` says that it is unique;
* `Coverage.Summarizes` : a map after some observations; `Coverage.Summarizes.record` is one observation,
  `Coverage.Summarizes.recordAll` all;
* `Coverage.Agrees` : maps that hold the same numbers for the same targets;
* `Coverage.ofList_keepsLeast` : all of it, for observations in any order.
-/

namespace CoverSearch

variable {c c' : Coverage} {d e x y : Float} {s t : Target} {ds : Set Float}
  {observations observations' : List (Target × Float)}

/-! ## One more observation -/

namespace Coverage

theorem lookup_recordIn_self (t : Target) (d : Float) (entries : List (Target × Float)) :
    (recordIn t d entries).lookup t = some ((entries.lookup t).elim d (least · d)) := by
  induction entries with
  | nil => simp [recordIn]
  | cons entry rest ih =>
    obtain ⟨u, e⟩ := entry
    unfold recordIn
    split <;> rename_i hu
    · simp [hu]
    · have hbeq : (t == u) = false := beq_false_of_ne (Ne.symm hu)
      simp [List.lookup_cons, hbeq, ih]

theorem lookup_recordIn_of_ne (h : s ≠ t) (d : Float) (entries : List (Target × Float)) :
    (recordIn t d entries).lookup s = entries.lookup s := by
  have hbeq : (s == t) = false := beq_false_of_ne h
  induction entries with
  | nil => simp [recordIn, List.lookup_cons, hbeq]
  | cons entry rest ih =>
    obtain ⟨u, e⟩ := entry
    unfold recordIn
    split <;> rename_i hu
    · simp [hu, List.lookup_cons, hbeq]
    · simp [List.lookup_cons, ih]

theorem get?_record_self (c : Coverage) (t : Target) (d : Float) :
    (c.record t d).get? t = some ((c.get? t).elim d (least · d)) :=
  lookup_recordIn_self t d c.entries

theorem get?_record_of_ne (h : s ≠ t) (c : Coverage) (d : Float) : (c.record t d).get? s = c.get? s :=
  lookup_recordIn_of_ne h d c.entries

theorem get?_record (h : c.get? t = some d) (y : Float) : (c.record t y).get? t = some (least d y) := by
  rw [get?_record_self, h]
  rfl

theorem get?_record_of_none (h : c.get? t = none) (y : Float) : (c.record t y).get? t = some y := by
  rw [get?_record_self, h]
  rfl

end Coverage

/-! ## The least number -/

namespace Double

theorem least_eq (x d : Float) : least x d = x ∨ least x d = d := by
  unfold least
  split
  · exact Or.inr rfl
  · exact Or.inl rfl

theorem least_le_left (hx : x.isNaN = false) (d : Float) : least x d ≤ x := by
  unfold least
  rw [hx, Bool.or_false]
  split <;> rename_i h
  · exact le_of_lt (of_decide_eq_true h)
  · exact le_refl hx

theorem least_le_right (x : Float) (hd : d.isNaN = false) : least x d ≤ d := by
  unfold least
  split <;> rename_i h
  · exact le_refl hd
  · obtain ⟨hlt, hx⟩ := Bool.or_eq_false_iff.1 (Bool.eq_false_iff.2 h)
    exact (le_iff_not_lt hx hd).2 (of_decide_eq_false hlt)

/-- One of some doubles, with no number less among them; a NaN only if there is no number. -/
structure IsLeastNumber (ds : Set Float) (x : Float) : Prop where
  mem : x ∈ ds
  le : ∀ d ∈ ds, d.isNaN = false → x ≤ d

namespace IsLeastNumber

theorem isNaN_iff (h : IsLeastNumber ds x) : x.isNaN = true ↔ ∀ d ∈ ds, d.isNaN = true := by
  constructor
  · intro hx d hd
    by_contra hnumber
    exact not_le_of_isNaN hx (h.le d hd (by simpa using hnumber))
  · intro hall
    exact hall x h.mem

theorem same (hx : IsLeastNumber ds x) (hy : IsLeastNumber ds y) : Same x y := by
  rcases hnan : x.isNaN with _ | _
  · have hy' : y.isNaN = false := isNaN_of_le (hy.le x hx.mem hnan)
    exact Or.inl (beq_iff_le.2 ⟨hx.le y hy.mem hy', hy.le x hx.mem hnan⟩)
  · exact Or.inr ⟨hnan, hx.isNaN_iff.1 hnan y hy.mem⟩

theorem singleton (x : Float) : IsLeastNumber {x} x where
  mem := rfl
  le := by
    rintro d rfl hd
    exact le_refl hd

theorem insert (h : IsLeastNumber ds x) (d : Float) : IsLeastNumber (insert d ds) (least x d) where
  mem := by
    rcases least_eq x d with heq | heq
    · rw [heq]
      exact Or.inr h.mem
    · exact Or.inl heq
  le := by
    rintro e (rfl | he) hnumber
    · exact least_le_right x hnumber
    · have hx := h.le e he hnumber
      exact le_trans (least_le_left (isNaN_of_le hx) d) hx

end IsLeastNumber

end Double

/-! ## Histories -/

namespace Coverage

/-- What a map keeps of some observations. -/
structure Summarizes (c : Coverage) (observations : List (Target × Float)) : Prop where
  contains_iff : ∀ t, c.contains t = true ↔ ∃ d, (t, d) ∈ observations
  isLeastNumber : ∀ t x, c.get? t = some x → Double.IsLeastNumber {d | (t, d) ∈ observations} x

/-- The same targets with the same numbers. -/
def Agrees (c c' : Coverage) : Prop := ∀ t, Option.Rel Double.Same (c.get? t) (c'.get? t)

/-- The map after some more observations. -/
def recordAll (c : Coverage) (observations : List (Target × Float)) : Coverage :=
  observations.foldl (fun c o => c.record o.1 o.2) c

theorem summarizes_empty : empty.Summarizes [] where
  contains_iff := by simp [contains, get?, empty]
  isLeastNumber := by simp [get?, empty]

theorem contains_iff_get? : c.contains t = true ↔ ∃ x, c.get? t = some x := Option.isSome_iff_exists

namespace Summarizes

theorem get?_eq_none_iff (h : c.Summarizes observations) : c.get? t = none ↔ ∀ d, (t, d) ∉ observations := by
  rw [← not_exists, ← h.contains_iff, contains_iff_get?]
  rcases c.get? t <;> simp

theorem record (h : c.Summarizes observations) (t : Target) (d : Float) :
    (c.record t d).Summarizes (observations ++ [(t, d)]) where
  contains_iff := by
    intro s
    rcases eq_or_ne s t with rfl | hs
    · refine iff_of_true (contains_iff_get?.2 ⟨_, get?_record_self c s d⟩) ⟨d, ?_⟩
      exact List.mem_append_right _ (List.mem_singleton_self _)
    · rw [contains, get?_record_of_ne hs, ← contains, h.contains_iff]
      simp [hs]
  isLeastNumber := by
    intro s x hx
    rcases eq_or_ne s t with rfl | hs
    · have hinsert : {e | (s, e) ∈ observations ++ [(s, d)]} = insert d {e | (s, e) ∈ observations} := by
        ext e
        simp [or_comm]
      rw [hinsert]
      rcases hold : c.get? s with _ | y
      · obtain rfl := Option.some.inj ((get?_record_of_none hold d).symm.trans hx)
        have hnone : {e | (s, e) ∈ observations} = ∅ := Set.eq_empty_of_forall_notMem (h.get?_eq_none_iff.1 hold)
        rw [hnone, insert_empty_eq]
        exact .singleton d
      · obtain rfl := Option.some.inj ((get?_record hold d).symm.trans hx)
        exact (h.isLeastNumber s y hold).insert d
    · rw [get?_record_of_ne hs] at hx
      simpa [hs] using h.isLeastNumber s x hx

theorem recordAll (h : c.Summarizes observations) (more : List (Target × Float)) :
    (c.recordAll more).Summarizes (observations ++ more) := by
  induction more generalizing c observations with
  | nil => rwa [List.append_nil]
  | cons o more ih =>
    rw [← List.singleton_append, ← List.append_assoc]
    exact ih (h.record o.1 o.2)

/-- What is kept does not depend on the order of the observations. -/
theorem agrees (h : c.Summarizes observations) (h' : c'.Summarizes observations')
    (hperm : observations.Perm observations') : c.Agrees c' := by
  intro t
  rcases ht : c.get? t with _ | x
  · have ht' : c'.get? t = none := h'.get?_eq_none_iff.2 fun d hd => h.get?_eq_none_iff.1 ht d (hperm.mem_iff.2 hd)
    rw [ht']
    exact .none
  · obtain ⟨d, hd⟩ := (h.contains_iff t).1 (contains_iff_get?.2 ⟨x, ht⟩)
    obtain ⟨y, ht'⟩ := contains_iff_get?.1 ((h'.contains_iff t).2 ⟨d, hperm.mem_iff.1 hd⟩)
    have hy := h'.isLeastNumber t y ht'
    simp only [← hperm.mem_iff] at hy
    rw [ht']
    exact .some ((h.isLeastNumber t x ht).same hy)

end Summarizes

/-! ## Main statement -/

theorem summarizes_ofList (observations : List (Target × Float)) : (ofList observations).Summarizes observations :=
  summarizes_empty.recordAll observations

/-- The map of some observations holds the observed targets, each with the least number observed for it, or with a NaN
if no number was. Any other order of the observations, some of them recorded later or not, gives a map that agrees. -/
theorem ofList_keepsLeast (observations : List (Target × Float)) :
    (∀ t, (ofList observations).contains t = true ↔ ∃ d, (t, d) ∈ observations) ∧
      (∀ t x, (ofList observations).get? t = some x →
        Double.IsLeastNumber {d | (t, d) ∈ observations} x ∧
          (x.isNaN = true ↔ ∀ d, (t, d) ∈ observations → d.isNaN = true)) ∧
      ∀ first later, (first ++ later).Perm observations →
        ((ofList first).recordAll later).Agrees (ofList observations) := by
  have h := summarizes_ofList observations
  refine ⟨h.contains_iff, fun t x hx => ?_, fun first later hperm => ?_⟩
  · have hleast := h.isLeastNumber t x hx
    exact ⟨hleast, hleast.isNaN_iff⟩
  · exact ((summarizes_ofList first).recordAll later).agrees h hperm

/-- Block 1 is observed at NaNs, at an infinity and at both zeros, and block 2 at a NaN only. -/
def mixedObservations : List (Target × Float) :=
  [(⟨"f", 1⟩, 0 / 0), (⟨"f", 1⟩, 1 / 0), (⟨"f", 2⟩, 0 / 0), (⟨"f", 1⟩, -0.0), (⟨"f", 1⟩, 0 / 0), (⟨"f", 1⟩, 0)]

theorem ofList_keepsLeast_mixedObservations :
    (ofList mixedObservations).get? ⟨"f", 1⟩ = some (-0.0) ∧
      Double.IsLeastNumber {d | (⟨"f", 1⟩, d) ∈ mixedObservations} (-0.0) ∧
      (ofList mixedObservations).get? ⟨"f", 2⟩ = some (0 / 0) ∧
      (∀ d, (⟨"f", 2⟩, d) ∈ mixedObservations → d.isNaN = true) ∧
      (mixedObservations.reverse.take 2 ++ mixedObservations.reverse.drop 2).Perm mixedObservations ∧
      ((ofList (mixedObservations.reverse.take 2)).recordAll (mixedObservations.reverse.drop 2)).Agrees
        (ofList mixedObservations) := by
  obtain ⟨-, hleast, hagrees⟩ := ofList_keepsLeast mixedObservations
  have hrun : (ofList mixedObservations).get? ⟨"f", 1⟩ = some (-0.0) ∧
      (ofList mixedObservations).get? ⟨"f", 2⟩ = some (0 / 0) ∧ (0 / 0 : Float).isNaN = true := by
    decide +kernel
  obtain ⟨hone, htwo, hnan⟩ := hrun
  have hperm : (mixedObservations.reverse.take 2 ++ mixedObservations.reverse.drop 2).Perm mixedObservations := by
    rw [List.take_append_drop]
    exact List.reverse_perm _
  exact ⟨hone, (hleast _ _ hone).1, htwo, (hleast _ _ htwo).2.1 hnan, hperm, hagrees _ _ hperm⟩

end Coverage

end CoverSearch
