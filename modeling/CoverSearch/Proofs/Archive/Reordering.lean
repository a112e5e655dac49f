import CoverSearch.Case
import CoverSearch.Proofs.Archive.History
import Mathlib.Data.List.Forall2

/-!
# Archives of repeated and reordered histories

A batch that is offered once more changes nothing, although its covers take each other's places on the way: the last of
the shortest ones comes last again, and no fitness in the batch is less than the least one. The order of a history
decides which of several shortest covers is kept, but neither how long it is nor what the least fitness is.

* `Slot.foldl_offer_cases`, `IsLastShortest.unique` : the entry after a batch, whatever the slot was before;
* `Slot.foldl_offer_self` : a batch that is offered twice;
* `Slot.Agrees` : slots with covers of one size and the same least fitness; `Slot.Agrees.offer` is one individual,
  `Slot.agrees_offer_offer` two of them in either order, `Slot.agrees_of_perm` a whole history;
* `Archive.updates_perm` : both for archives.
-/

namespace CoverSearch

variable {C : Type} [Chromosome C] {o : Objective C} {history batch batch' : List C} {s t u : Slot C} {c d : C}

/-! ## A batch that is offered twice -/

omit [Chromosome C] in
theorem eq_or_mem_of_append_eq {before after before' after' : List C}
    (h : before ++ c :: after = before' ++ d :: after') :
    c = d ∨ d ∈ after ∧ c ∈ before' ∨ c ∈ after' ∧ d ∈ before := by
  rcases List.append_eq_append_iff.1 h with ⟨mid, rfl, hmid⟩ | ⟨mid, rfl, hmid⟩
  · cases mid with
    | nil => exact Or.inl (List.cons.inj hmid).1
    | cons x mid =>
      obtain ⟨rfl, rfl⟩ := List.cons.inj hmid
      exact Or.inr (Or.inl ⟨by simp, by simp⟩)
  · cases mid with
    | nil => exact Or.inl (List.cons.inj hmid).1.symm
    | cons x mid =>
      obtain ⟨rfl, rfl⟩ := List.cons.inj hmid
      exact Or.inr (Or.inr ⟨by simp, by simp⟩)

theorem IsLastShortest.unique (hc : IsLastShortest o history c) (hd : IsLastShortest o history d) : c = d := by
  obtain ⟨before, after, rfl, hcover, hbefore, hafter⟩ := hc
  obtain ⟨before', after', heq, hcover', hbefore', hafter'⟩ := hd
  rcases eq_or_mem_of_append_eq heq with rfl | ⟨hd, hc⟩ | ⟨hc, hd⟩
  · rfl
  · exact absurd (hafter d hd hcover') (Nat.not_lt.2 (hbefore' c hc hcover))
  · exact absurd (hafter' c hc hcover) (Nat.not_lt.2 (hbefore d hd hcover'))

namespace Slot

theorem accepts_congr (h : s.entry = t.entry) (c : C) : s.accepts c = t.accepts c := by
  unfold accepts
  rw [h]

theorem accepts_iff_of_entry (h : s.entry = some c) : s.accepts d = true ↔ Chromosome.size d ≤ Chromosome.size c := by
  rw [accepts_iff, h]
  simp

theorem accepts_of_size_le (h : s.accepts c = true) (hsize : Chromosome.size d ≤ Chromosome.size c) :
    s.accepts d = true :=
  accepts_iff.2 fun e he => hsize.trans (accepts_iff.1 h e he)

/-- What is refused is longer than what is accepted. -/
theorem size_lt_of_not_accepts (hc : s.accepts c = true) (hd : ¬ s.accepts d = true) :
    Chromosome.size c < Chromosome.size d := by
  by_contra hsize
  exact hd (accepts_of_size_le hc (Nat.not_lt.1 hsize))

/-- After a batch a slot has its entry still, as every cover in the batch was refused, or the last of the shortest
covers in the batch, which was accepted. -/
theorem foldl_offer_cases (s : Slot C) (batch : List C) :
    (batch.foldl offer s).entry = s.entry ∧
        (∀ c ∈ batch, (s.objective.fitness c == 0) = true → ¬ s.accepts c = true) ∨
      ∃ c, (batch.foldl offer s).entry = some c ∧ IsLastShortest s.objective batch c ∧ s.accepts c = true := by
  induction batch using List.reverseRecOn with
  | nil => exact Or.inl ⟨rfl, fun _ h => absurd h List.not_mem_nil⟩
  | append_singleton batch d ih =>
    rw [List.foldl_append, List.foldl_cons, List.foldl_nil, offer_entry, foldl_offer_objective]
    rcases ih with ⟨hentry, hrefused⟩ | ⟨c, hentry, hlast, haccepts⟩
    · rw [accepts_congr hentry d, hentry]
      split <;> rename_i hd
      · refine Or.inr ⟨d, rfl, .concat_self hd.1 fun c hc hcover => ?_, hd.2⟩
        exact (size_lt_of_not_accepts hd.2 (hrefused c hc hcover)).le
      · refine Or.inl ⟨rfl, List.forall_mem_append.2 ⟨hrefused, List.forall_mem_singleton.2 fun hcover haccepts => ?_⟩⟩
        exact hd ⟨hcover, haccepts⟩
    · have hiff := accepts_iff_of_entry (d := d) hentry
      rw [hentry]
      refine Or.inr ?_
      split <;> rename_i hd
      · have hsize := hiff.1 hd.2
        refine ⟨d, rfl, .concat_self hd.1 fun e he hcover => ?_, accepts_of_size_le haccepts hsize⟩
        exact hsize.trans (hlast.size_le he hcover)
      · refine ⟨c, rfl, hlast.concat fun hcover => ?_, haccepts⟩
        by_contra hsize
        exact hd ⟨hcover, hiff.2 (Nat.not_lt.1 hsize)⟩

theorem foldl_offer_entry_self (s : Slot C) (batch : List C) :
    (batch.foldl offer (batch.foldl offer s)).entry = (batch.foldl offer s).entry := by
  rcases foldl_offer_cases (batch.foldl offer s) batch with ⟨hentry, -⟩ | ⟨c, hentry, hlast, haccepts⟩
  · exact hentry
  · rw [foldl_offer_objective] at hlast
    rcases foldl_offer_cases s batch with ⟨hbefore, hrefused⟩ | ⟨d, hbefore, hlast', -⟩
    · rw [accepts_congr hbefore] at haccepts
      exact absurd haccepts (hrefused c hlast.mem hlast.covers)
    · rw [hentry, hbefore, hlast.unique hlast']

/-- No fitness in a batch is less than the least one after it. -/
theorem not_lt_foldl_offer_best (hc : c ∈ batch) (s : Slot C) :
    ¬ s.objective.fitness c < (batch.foldl offer s).best := by
  induction batch using List.reverseRecOn with
  | nil => exact absurd hc List.not_mem_nil
  | append_singleton batch d ih =>
    rw [List.foldl_append, List.foldl_cons, List.foldl_nil, offer_best, foldl_offer_objective]
    rcases List.mem_append.1 hc with hc | hc
    · split <;> rename_i hlt
      · exact fun h => ih hc (Double.lt_trans h hlt)
      · exact ih hc
    · rw [List.mem_singleton.1 hc]
      split <;> rename_i hlt
      · exact Double.lt_irrefl _
      · exact hlt

theorem foldl_offer_best_of_not_lt (h : ∀ c ∈ batch, ¬ s.objective.fitness c < s.best) :
    (batch.foldl offer s).best = s.best := by
  induction batch generalizing s with
  | nil => rfl
  | cons c batch ih =>
    obtain ⟨hc, hbatch⟩ := List.forall_mem_cons.1 h
    have hbest : (s.offer c).best = s.best := if_neg hc
    rw [List.foldl_cons, ih, hbest]
    rwa [hbest]

omit [Chromosome C] in
theorem eq_of_fields (hobjective : s.objective = t.objective) (hentry : s.entry = t.entry) (hbest : s.best = t.best) :
    s = t := by
  cases s
  cases t
  congr

theorem foldl_offer_self (s : Slot C) (batch : List C) :
    batch.foldl offer (batch.foldl offer s) = batch.foldl offer s := by
  refine eq_of_fields (foldl_offer_objective _ _) (foldl_offer_entry_self s batch) (foldl_offer_best_of_not_lt ?_)
  intro c hc
  rw [foldl_offer_objective]
  exact not_lt_foldl_offer_best hc s

/-! ## A history in another order -/

/-- The size of the entry. -/
def size? (s : Slot C) : Option Nat := s.entry.map Chromosome.size

/-- Slots for one objective with entries of one size, or none, and the same least fitness. -/
structure Agrees (s t : Slot C) : Prop where
  objective_eq : s.objective = t.objective
  size?_eq : s.size? = t.size?
  best_same : Double.Same s.best t.best

theorem size?_offer (s : Slot C) (c : C) : (s.offer c).size? =
    if (s.objective.fitness c == 0) = true then
      some (s.size?.elim (Chromosome.size c) (min (Chromosome.size c)))
    else s.size? := by
  unfold size?
  rw [offer_entry]
  by_cases hcover : (s.objective.fitness c == 0) = true
  · rcases hentry : s.entry with _ | e
    · simp [hcover, accepts, hentry]
    · by_cases hsize : Chromosome.size c ≤ Chromosome.size e
      · simp [hcover, accepts, hentry, hsize]
      · simp [hcover, accepts, hentry, hsize, Nat.min_eq_right (Nat.le_of_not_le hsize)]
  · simp [hcover]

namespace Agrees

theorem refl (s : Slot C) : s.Agrees s := ⟨rfl, rfl, .refl _⟩

theorem trans (h : s.Agrees t) (h' : t.Agrees u) : s.Agrees u :=
  ⟨h.objective_eq.trans h'.objective_eq, h.size?_eq.trans h'.size?_eq, h.best_same.trans h'.best_same⟩

theorem isCovered_eq (h : s.Agrees t) : s.isCovered = t.isCovered := by
  have hsize := congrArg Option.isSome h.size?_eq
  unfold size? at hsize
  rwa [Option.isSome_map, Option.isSome_map] at hsize

/-- Slots that agree still do after one more individual. -/
theorem offer (h : s.Agrees t) (c : C) : (s.offer c).Agrees (t.offer c) where
  objective_eq := h.objective_eq
  size?_eq := by rw [size?_offer, size?_offer, h.objective_eq, h.size?_eq]
  best_same := by
    rw [offer_best, offer_best, h.objective_eq]
    by_cases hlt : t.objective.fitness c < t.best
    · rw [if_pos hlt, if_pos (h.best_same.lt_congr_right.2 hlt)]
      exact .refl _
    · rw [if_neg hlt, if_neg fun h' => hlt (h.best_same.lt_congr_right.1 h')]
      exact h.best_same

theorem foldl_offer (h : s.Agrees t) (batch : List C) :
    (batch.foldl Slot.offer s).Agrees (batch.foldl Slot.offer t) := by
  induction batch generalizing s t with
  | nil => exact h
  | cons c batch ih => exact ih (h.offer c)

end Agrees

/-- The less of two fitness values is kept in either order, and of equal ones the first. -/
theorem best_offer_offer (s : Slot C) (c d : C) :
    Double.Same ((s.offer c).offer d).best ((s.offer d).offer c).best := by
  have hobjective : ∀ e, (s.offer e).objective = s.objective := fun _ => rfl
  simp only [offer_best, hobjective]
  generalize s.objective.fitness c = x
  generalize s.objective.fitness d = y
  by_cases hx : x < s.best <;> by_cases hy : y < s.best
  · rw [if_pos hx, if_pos hy]
    by_cases hyx : y < x
    · rw [if_pos hyx, if_neg (Double.lt_asymm hyx)]
      exact .refl y
    · rw [if_neg hyx]
      split <;> rename_i hxy
      · exact .refl x
      · exact Double.same_of_not_lt (Double.isNaN_of_le (Double.le_of_lt hx)) (Double.isNaN_of_le (Double.le_of_lt hy))
          hxy hyx
  · rw [if_pos hx, if_neg hy, if_pos hx, if_neg fun hyx => hy (Double.lt_trans hyx hx)]
    exact .refl x
  · rw [if_neg hx, if_pos hy, if_neg fun hxy => hx (Double.lt_trans hxy hy)]
    exact .refl y
  · rw [if_neg hx, if_neg hy, if_neg hx]
    exact .refl _

theorem agrees_offer_offer (s : Slot C) (c d : C) : ((s.offer c).offer d).Agrees ((s.offer d).offer c) where
  objective_eq := rfl
  size?_eq := by
    have hobjective : ∀ e, (s.offer e).objective = s.objective := fun _ => rfl
    simp only [size?_offer, hobjective]
    split <;> split
    · rcases s.size? with _ | n
      · exact congrArg some (Nat.min_comm _ _)
      · exact congrArg some (Nat.min_left_comm _ _ _)
    · rfl
    · rfl
    · rfl
  best_same := best_offer_offer s c d

theorem agrees_of_perm (h : batch.Perm batch') (s : Slot C) : (batch.foldl offer s).Agrees (batch'.foldl offer s) := by
  induction h generalizing s with
  | nil => exact .refl s
  | cons c _ ih => exact ih (s.offer c)
  | swap c d batch => exact (agrees_offer_offer s d c).foldl_offer batch
  | trans _ _ ih ih' => exact (ih s).trans (ih' s)

end Slot

/-! ## Main statement -/

namespace Archive

theorem update_update_self (a : Archive C) (batch : List C) : (a.update batch).update batch = a.update batch := by
  unfold update
  rw [List.map_map]
  congr 2
  funext s
  exact s.foldl_offer_self batch

theorem newlyCovered_update_self (a : Archive C) (batch : List C) : (a.update batch).newlyCovered batch = 0 := by
  have h := (a.update batch).coveredTargets_add_newlyCovered batch
  rw [update_update_self] at h
  omega

theorem forall₂_agrees_of_perm (h : batch.Perm batch') (a : Archive C) :
    List.Forall₂ Slot.Agrees (a.update batch).slots (a.update batch').slots := by
  rw [slots_update, slots_update, List.forall₂_map_left_iff, List.forall₂_map_right_iff, List.forall₂_same]
  exact fun s _ => Slot.agrees_of_perm h s

theorem coveredTargets_of_forall₂ {a b : Archive C} (h : List.Forall₂ Slot.Agrees a.slots b.slots) :
    a.coveredTargets = b.coveredTargets := by
  unfold coveredTargets
  generalize a.slots = slots at h
  generalize b.slots = slots' at h
  induction h with
  | nil => rfl
  | cons h _ ih => rw [List.countP_cons, List.countP_cons, ih, h.isCovered_eq]

/-- A batch that an archive has seen covers nothing first and changes nothing, whatever the archive was before. Batches
of the same individuals, in any order and cut in any way, cover the same objectives with entries of the same sizes, and
leave the same least fitness. -/
theorem updates_perm (a : Archive C) :
    (∀ batch, (a.update batch).newlyCovered batch = 0 ∧ (a.update batch).update batch = a.update batch) ∧
      ∀ batches batches' : List (List C), batches.flatten.Perm batches'.flatten →
        List.Forall₂ Slot.Agrees (a.updates batches).slots (a.updates batches').slots ∧
          (a.updates batches).coveredTargets = (a.updates batches').coveredTargets := by
  refine ⟨fun batch => ⟨a.newlyCovered_update_self batch, a.update_update_self batch⟩, fun batches batches' h => ?_⟩
  rw [updates_eq, updates_eq]
  have hagrees := forall₂_agrees_of_perm h a
  exact ⟨hagrees, coveredTargets_of_forall₂ hagrees⟩

/-- The first two cover objective 0 and are equally long; the last two cover objective 1, at a zero of either sign. -/
def tiedCases : List Case := [⟨1, 2, [0, 0 / 0]⟩, ⟨2, 2, [0, 3]⟩, ⟨3, 5, [4, -0.0]⟩, ⟨4, 5, [2, 0]⟩]

def nothingForTwo : Archive Case := empty [Case.objective 0, Case.objective 1]

/-- In the opposite order the other ones are kept. -/
theorem updates_perm_tiedCases :
    [tiedCases.take 3, tiedCases.drop 3].flatten.Perm [tiedCases.reverse].flatten ∧
      List.Forall₂ Slot.Agrees (nothingForTwo.updates [tiedCases.take 3, tiedCases.drop 3]).slots
        (nothingForTwo.updates [tiedCases.reverse]).slots ∧
      (nothingForTwo.updates [tiedCases.take 3, tiedCases.drop 3]).slots.map (·.entry.map Case.id) =
        [some 2, some 4] ∧
      (nothingForTwo.updates [tiedCases.reverse]).slots.map (·.entry.map Case.id) = [some 1, some 3] ∧
      (nothingForTwo.update tiedCases.reverse).newlyCovered tiedCases.reverse = 0 := by
  have hperm : [tiedCases.take 3, tiedCases.drop 3].flatten.Perm [tiedCases.reverse].flatten :=
    (List.reverse_perm tiedCases).symm
  have hrun : (nothingForTwo.updates [tiedCases.take 3, tiedCases.drop 3]).slots.map (·.entry.map Case.id) =
        [some 2, some 4] ∧
      (nothingForTwo.updates [tiedCases.reverse]).slots.map (·.entry.map Case.id) = [some 1, some 3] := by
    decide +kernel
  obtain ⟨hsettled, hagrees⟩ := updates_perm nothingForTwo
  exact ⟨hperm, (hagrees _ _ hperm).1, hrun.1, hrun.2, (hsettled tiedCases.reverse).1⟩

end Archive

end CoverSearch
