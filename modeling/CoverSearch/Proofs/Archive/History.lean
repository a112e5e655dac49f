import CoverSearch.Archive
import CoverSearch.Proofs.Value.Order
import Mathlib.Data.List.Induction

/-!
# What an archive remembers of a history

A slot sees one individual after the other, so batches do not matter, only the history that they make together. After
a history `h` the entry is the last of the shortest individuals of `h` that cover the objective, and `best` is the least
number among `maxFitness` and the fitness values of `h`:

* `Slot.Summarizes` : a slot after a history; `Slot.Summarizes.offer` is one individual, `Slot.summarizes_foldl` all;
* `Archive.updates_eq` : a sequence of batches is one update by their concatenation;
* `Archive.total_newlyCoveredEach` : the returned numbers add up to the covered objectives;
* `Archive.updates_empty` : all of it, from an empty archive on.
-/

namespace CoverSearch

variable {C : Type} [Chromosome C]

/-! ## One slot -/

/-- The last of the shortest individuals of a history that bring an objective to zero. -/
def IsLastShortest (o : Objective C) (history : List C) (c : C) : Prop :=
  ∃ before after, history = before ++ c :: after ∧ (o.fitness c == 0) = true ∧
    (∀ d ∈ before, (o.fitness d == 0) = true → Chromosome.size c ≤ Chromosome.size d) ∧
    ∀ d ∈ after, (o.fitness d == 0) = true → Chromosome.size c < Chromosome.size d

/-- What a slot for an objective keeps of a history. -/
structure Slot.Summarizes (s : Slot C) (o : Objective C) (history : List C) : Prop where
  objective_eq : s.objective = o
  isSome_entry : s.entry.isSome = true ↔ ∃ c ∈ history, (o.fitness c == 0) = true
  entry_isLastShortest : ∀ c, s.entry = some c → IsLastShortest o history c
  best_le_maxFitness : s.best ≤ maxFitness
  best_le : ∀ c ∈ history, (o.fitness c).isNaN = false → s.best ≤ o.fitness c
  best_attained : s.best = maxFitness ∨ ∃ c ∈ history, s.best = o.fitness c

namespace IsLastShortest
variable {o : Objective C} {history : List C} {c d : C}

theorem mem (h : IsLastShortest o history c) : c ∈ history := by
  obtain ⟨before, after, rfl, -⟩ := h
  exact List.mem_append_right _ List.mem_cons_self

theorem covers (h : IsLastShortest o history c) : (o.fitness c == 0) = true := by
  obtain ⟨before, after, -, hcover, -⟩ := h
  exact hcover

theorem size_le (h : IsLastShortest o history c) (hd : d ∈ history) (hcover : (o.fitness d == 0) = true) :
    Chromosome.size c ≤ Chromosome.size d := by
  obtain ⟨before, after, rfl, -, hbefore, hafter⟩ := h
  rcases List.mem_append.1 hd with hd | hd
  · exact hbefore d hd hcover
  · rcases List.mem_cons.1 hd with rfl | hd
    · exact Nat.le_refl _
    · exact Nat.le_of_lt (hafter d hd hcover)

/-- A cover that is not longer than those before takes their place. -/
theorem concat_self (hcover : (o.fitness d == 0) = true)
    (hsize : ∀ c ∈ history, (o.fitness c == 0) = true → Chromosome.size d ≤ Chromosome.size c) :
    IsLastShortest o (history ++ [d]) d :=
  ⟨history, [], rfl, hcover, hsize, fun _ h => absurd h List.not_mem_nil⟩

/-- What is no cover, or a longer one, changes nothing. -/
theorem concat (h : IsLastShortest o history c)
    (hd : (o.fitness d == 0) = true → Chromosome.size c < Chromosome.size d) :
    IsLastShortest o (history ++ [d]) c := by
  obtain ⟨before, after, rfl, hc, hbefore, hafter⟩ := h
  refine ⟨before, after ++ [d], by rw [List.append_assoc, List.cons_append], hc, hbefore, fun e he hcover => ?_⟩
  rcases List.mem_append.1 he with he | he
  · exact hafter e he hcover
  · rw [List.mem_singleton.1 he] at hcover ⊢
    exact hd hcover

end IsLastShortest

namespace Slot
variable {s : Slot C} {o : Objective C} {history : List C} {c d : C}

theorem offer_entry (s : Slot C) (c : C) : (s.offer c).entry =
    if (s.objective.fitness c == 0) = true ∧ s.accepts c = true then some c else s.entry := by
  rw [offer]
  simp only [Bool.and_eq_true]

theorem offer_best (s : Slot C) (c : C) :
    (s.offer c).best = if s.objective.fitness c < s.best then s.objective.fitness c else s.best := rfl

theorem foldl_offer_objective (s : Slot C) (batch : List C) : (batch.foldl Slot.offer s).objective = s.objective := by
  induction batch generalizing s with
  | nil => rfl
  | cons c batch ih => exact ih (s.offer c)

theorem accepts_iff : s.accepts d = true ↔ ∀ c, s.entry = some c → Chromosome.size d ≤ Chromosome.size c := by
  rw [accepts]
  rcases s.entry with _ | e <;> simp

theorem summarizes_empty (o : Objective C) : ({ objective := o } : Slot C).Summarizes o [] where
  objective_eq := rfl
  isSome_entry := by simp
  entry_isLastShortest := by simp
  best_le_maxFitness := Double.le_refl Double.isNaN_maxFitness
  best_le := by simp
  best_attained := Or.inl rfl

namespace Summarizes

/-- A cover that is turned down is longer than the entry. -/
theorem size_lt (h : s.Summarizes o history)
    (hd : ¬ ((s.objective.fitness d == 0) = true ∧ s.accepts d = true)) (hcover : (o.fitness d == 0) = true) :
    ∃ c, s.entry = some c ∧ Chromosome.size c < Chromosome.size d := by
  rw [h.objective_eq, accepts_iff] at hd
  by_contra hnone
  refine hd ⟨hcover, fun c hc => ?_⟩
  by_contra hsize
  exact hnone ⟨c, hc, by omega⟩

theorem offer_isSome_entry (h : s.Summarizes o history) :
    (s.offer d).entry.isSome = true ↔ ∃ c ∈ history ++ [d], (o.fitness c == 0) = true := by
  rw [offer_entry]
  split <;> rename_i hd
  · rw [h.objective_eq] at hd
    exact ⟨fun _ => ⟨d, List.mem_append_right _ (List.mem_singleton_self d), hd.1⟩, fun _ => rfl⟩
  · rw [h.isSome_entry]
    constructor
    · rintro ⟨c, hc, hcover⟩
      exact ⟨c, List.mem_append_left _ hc, hcover⟩
    · rintro ⟨c, hc, hcover⟩
      rcases List.mem_append.1 hc with hc | hc
      · exact ⟨c, hc, hcover⟩
      · rw [List.mem_singleton.1 hc] at hcover
        obtain ⟨e, he, -⟩ := h.size_lt hd hcover
        exact h.isSome_entry.1 (by rw [he]; rfl)

theorem offer_isLastShortest (h : s.Summarizes o history) (hc : (s.offer d).entry = some c) :
    IsLastShortest o (history ++ [d]) c := by
  rw [offer_entry] at hc
  split at hc <;> rename_i hd
  · obtain rfl := Option.some.inj hc
    rw [h.objective_eq, accepts_iff] at hd
    refine .concat_self hd.1 fun e he hcover => ?_
    -- the entry stands for every earlier cover
    obtain ⟨kept, hkept⟩ := Option.isSome_iff_exists.1 (h.isSome_entry.2 ⟨e, he, hcover⟩)
    exact (hd.2 kept hkept).trans ((h.entry_isLastShortest kept hkept).size_le he hcover)
  · refine (h.entry_isLastShortest c hc).concat fun hcover => ?_
    obtain ⟨e, he, hsize⟩ := h.size_lt hd hcover
    rwa [Option.some.inj (hc.symm.trans he)]

theorem isNaN_best (h : s.Summarizes o history) : s.best.isNaN = false := Double.isNaN_of_le h.best_le_maxFitness

theorem offer_best_le (h : s.Summarizes o history) (d : C) : (s.offer d).best ≤ s.best := by
  rw [offer_best]
  split <;> rename_i hd
  · exact Double.le_of_lt hd
  · exact Double.le_refl h.isNaN_best

theorem offer_best_le_self (h : s.Summarizes o history) (hd : (o.fitness d).isNaN = false) :
    (s.offer d).best ≤ o.fitness d := by
  rw [offer_best, h.objective_eq]
  split <;> rename_i hlt
  · exact Double.le_refl hd
  · exact (Double.le_iff_not_lt h.isNaN_best hd).2 hlt

theorem offer (h : s.Summarizes o history) (d : C) : (s.offer d).Summarizes o (history ++ [d]) where
  objective_eq := h.objective_eq
  isSome_entry := h.offer_isSome_entry
  entry_isLastShortest := fun _ hc => h.offer_isLastShortest hc
  best_le_maxFitness := Double.le_trans (h.offer_best_le d) h.best_le_maxFitness
  best_le := by
    intro c hc hnumber
    rcases List.mem_append.1 hc with hc | hc
    · exact Double.le_trans (h.offer_best_le d) (h.best_le c hc hnumber)
    · rw [List.mem_singleton.1 hc] at hnumber ⊢
      exact h.offer_best_le_self hnumber
  best_attained := by
    rw [offer_best, h.objective_eq]
    split
    · exact Or.inr ⟨d, List.mem_append_right _ (List.mem_singleton_self d), rfl⟩
    · refine h.best_attained.imp_right ?_
      rintro ⟨c, hc, hbest⟩
      exact ⟨c, List.mem_append_left _ hc, hbest⟩

end Summarizes

theorem Summarizes.foldl_offer (h : s.Summarizes o history) (batch : List C) :
    (batch.foldl Slot.offer s).Summarizes o (history ++ batch) := by
  induction batch generalizing s history with
  | nil => rwa [List.append_nil]
  | cons d batch ih =>
    rw [List.foldl_cons, ← List.singleton_append, ← List.append_assoc]
    exact ih (h.offer d)

theorem summarizes_foldl (o : Objective C) (history : List C) :
    (history.foldl Slot.offer { objective := o }).Summarizes o history := by
  simpa using (summarizes_empty o).foldl_offer history

/-- What is kept gives way to shorter or equally short individuals only. -/
theorem offer_entry_le (d : C) (hc : s.entry = some c) :
    ∃ e, (s.offer d).entry = some e ∧ Chromosome.size e ≤ Chromosome.size c := by
  rw [offer_entry]
  split <;> rename_i hd
  · exact ⟨d, rfl, accepts_iff.1 hd.2 c hc⟩
  · exact ⟨c, hc, Nat.le_refl _⟩

theorem foldl_offer_entry (batch : List C) (hc : s.entry = some c) :
    ∃ e, (batch.foldl Slot.offer s).entry = some e ∧ Chromosome.size e ≤ Chromosome.size c := by
  induction batch generalizing s c with
  | nil => exact ⟨c, hc, Nat.le_refl _⟩
  | cons d batch ih =>
    obtain ⟨e, he, hsize⟩ := offer_entry_le d hc
    obtain ⟨e', he', hsize'⟩ := ih he
    exact ⟨e', he', hsize'.trans hsize⟩

theorem foldl_offer_isCovered (batch : List C) (h : s.isCovered = true) :
    (batch.foldl Slot.offer s).isCovered = true := by
  obtain ⟨c, hc⟩ := Option.isSome_iff_exists.1 h
  obtain ⟨e, he, -⟩ := foldl_offer_entry batch hc
  exact Option.isSome_iff_exists.2 ⟨e, he⟩

/-- A slot that has been offered a cover keeps one. -/
theorem foldl_offer_isCovered_of_mem {batch : List C} (hd : d ∈ batch) (hcover : (s.objective.fitness d == 0) = true) :
    (batch.foldl Slot.offer s).isCovered = true := by
  induction batch generalizing s with
  | nil => exact absurd hd List.not_mem_nil
  | cons e batch ih =>
    rcases List.mem_cons.1 hd with rfl | hd
    · refine foldl_offer_isCovered batch ?_
      rw [isCovered, offer_entry]
      split <;> rename_i haccepts
      · rfl
      · -- only an entry can turn a cover down
        rcases hentry : s.entry with _ | c
        · exact absurd ⟨hcover, accepts_iff.2 fun c hc => nomatch hentry.symm.trans hc⟩ haccepts
        · rfl
    · exact ih hd hcover

end Slot

/-! ## Batches -/

namespace Archive

/-- The archive after some batches. -/
def updates (a : Archive C) (batches : List (List C)) : Archive C := batches.foldl update a

/-- What each batch is the first to cover. -/
def newlyCoveredEach (a : Archive C) : List (List C) → List Nat
  | [] => []
  | batch :: batches => a.newlyCovered batch :: newlyCoveredEach (a.update batch) batches

theorem update_nil (a : Archive C) : a.update [] = a := by
  rw [update]
  exact congrArg Archive.mk (List.map_id _)

theorem update_update (a : Archive C) (first second : List C) :
    (a.update first).update second = a.update (first ++ second) := by
  rw [update, update, update, List.map_map]
  congr 2
  funext s
  exact (List.foldl_append ..).symm

theorem updates_eq (a : Archive C) (batches : List (List C)) : a.updates batches = a.update batches.flatten := by
  induction batches generalizing a with
  | nil => exact a.update_nil.symm
  | cons batch batches ih =>
    show (a.update batch).updates batches = _
    rw [ih, update_update, List.flatten_cons]

theorem slots_update (a : Archive C) (batch : List C) : (a.update batch).slots = a.slots.map (batch.foldl Slot.offer) :=
  rfl

/-! ## What is covered stays covered -/

theorem coveredTargets_add_newlyCovered (a : Archive C) (batch : List C) :
    a.coveredTargets + a.newlyCovered batch = (a.update batch).coveredTargets := by
  rw [coveredTargets, coveredTargets, newlyCovered, slots_update, List.countP_map]
  induction a.slots with
  | nil => rfl
  | cons s slots ih =>
    have hstays : s.isCovered = true → (batch.foldl Slot.offer s).isCovered = true := Slot.foldl_offer_isCovered batch
    rw [List.countP_cons, List.countP_cons, List.countP_cons, ← ih, Function.comp_apply]
    rcases hs : s.isCovered
    · rw [Bool.not_false, Bool.true_and, if_neg Bool.false_ne_true]
      omega
    · rw [Bool.not_true, Bool.false_and, hstays hs, if_pos rfl, if_neg Bool.false_ne_true]
      omega

theorem coveredTargets_le_update (a : Archive C) (batch : List C) :
    a.coveredTargets ≤ (a.update batch).coveredTargets := by
  have h := a.coveredTargets_add_newlyCovered batch
  omega

theorem totalTargets_update (a : Archive C) (batch : List C) : (a.update batch).totalTargets = a.totalTargets := by
  unfold totalTargets
  rw [slots_update, List.length_map]

omit [Chromosome C] in
theorem coveredTargets_le_totalTargets (a : Archive C) : a.coveredTargets ≤ a.totalTargets := List.countP_le_length

theorem total_newlyCoveredEach (a : Archive C) (batches : List (List C)) :
    a.coveredTargets + total (a.newlyCoveredEach batches) = (a.updates batches).coveredTargets := by
  induction batches generalizing a with
  | nil => rfl
  | cons batch batches ih =>
    show _ = ((a.update batch).updates batches).coveredTargets
    rw [← ih, ← coveredTargets_add_newlyCovered, newlyCoveredEach, total_cons, Nat.add_assoc]

omit [Chromosome C] in
theorem coveredTargets_empty (objectives : List (Objective C)) : (empty objectives).coveredTargets = 0 := by
  rw [coveredTargets, empty, List.countP_map, List.countP_eq_zero]
  exact fun _ _ => Bool.false_ne_true

/-- An entry gives way to shorter or equally short ones only. -/
theorem entry?_update {a : Archive C} {i : Nat} {c : C} (batch : List C) (hc : a.entry? i = .ok (some c)) :
    ∃ d, entry? (a.update batch) i = .ok (some d) ∧ Chromosome.size d ≤ Chromosome.size c := by
  unfold entry? at hc
  rcases hs : a.slots[i]? with _ | s <;> rw [hs] at hc
  · exact nomatch hc
  · obtain ⟨d, hd, hsize⟩ := Slot.foldl_offer_entry batch (Except.ok.inj hc)
    refine ⟨d, ?_, hsize⟩
    unfold entry?
    rw [slots_update, List.getElem?_map, hs]
    exact congrArg Except.ok hd

/-- The objective at a position has an entry. -/
def HasEntry (a : Archive C) (i : Nat) : Prop := ∃ c, a.entry? i = .ok (some c)

theorem hasEntry_update {a : Archive C} {i : Nat} {s : Slot C} {c : C} {batch : List C} (hs : a.slots[i]? = some s)
    (hc : c ∈ batch) (hcover : (s.objective.fitness c == 0) = true) :
    (a.update batch).HasEntry i := by
  obtain ⟨d, hd⟩ := Option.isSome_iff_exists.1 (Slot.foldl_offer_isCovered_of_mem hc hcover)
  refine ⟨d, ?_⟩
  unfold entry?
  rw [slots_update, List.getElem?_map, hs]
  exact congrArg Except.ok hd

theorem map_objective_update (a : Archive C) (batch : List C) :
    (a.update batch).slots.map (·.objective) = a.slots.map (·.objective) := by
  rw [slots_update, List.map_map]
  congr 1
  funext s
  exact s.foldl_offer_objective batch

omit [Chromosome C] in
theorem coveredTargets_eq_totalTargets {a : Archive C} (h : ∀ i < a.totalTargets, a.entry? i ≠ .ok none) :
    a.coveredTargets = a.totalTargets := by
  rw [coveredTargets, totalTargets, List.countP_eq_length]
  intro s hs
  obtain ⟨i, hi, rfl⟩ := List.mem_iff_getElem.1 hs
  have hentry := h i hi
  unfold entry? at hentry
  rw [List.getElem?_eq_getElem hi] at hentry
  exact Option.isSome_iff_ne_none.2 fun hnone => hentry (congrArg Except.ok hnone)

/-! ## Main statement -/

/-- An archive after some batches. What it holds depends on their concatenation alone: the entry of an objective is the
last of the shortest individuals that bring it to zero, if there is one, and `best` is the least number among
`maxFitness` and all fitness values. The numbers returned add up to the covered objectives, and further batches never
take an entry away or make it longer. -/
theorem updates_empty (objectives : List (Objective C)) (batches : List (List C)) :
    (empty objectives).updates batches = (empty objectives).update batches.flatten ∧
      ((empty objectives).updates batches).totalTargets = objectives.length ∧
      (∀ i (h : i < objectives.length), ∃ s, ((empty objectives).updates batches).slots[i]? = some s ∧
        s.Summarizes objectives[i] batches.flatten) ∧
      total ((empty objectives).newlyCoveredEach batches) = ((empty objectives).updates batches).coveredTargets ∧
      ∀ more i c, entry? ((empty objectives).updates batches) i = .ok (some c) →
        ∃ d, entry? ((empty objectives).updates (batches ++ more)) i = .ok (some d) ∧
          Chromosome.size d ≤ Chromosome.size c := by
  refine ⟨updates_eq _ batches, ?_, fun i h => ?_, ?_, fun more i c hc => ?_⟩
  · rw [updates_eq, totalTargets, slots_update, List.length_map, empty, List.length_map]
  · rw [updates_eq, slots_update, List.getElem?_map, empty, List.getElem?_map, List.getElem?_eq_getElem h]
    exact ⟨_, rfl, Slot.summarizes_foldl objectives[i] batches.flatten⟩
  · rw [← total_newlyCoveredEach, coveredTargets_empty, Nat.zero_add]
  · have hmore : (empty objectives).updates (batches ++ more) =
        ((empty objectives).updates batches).update more.flatten := by
      rw [← updates_eq]
      exact List.foldl_append
    rw [hmore]
    exact entry?_update more.flatten hc

end Archive

end CoverSearch
