import Mathlib.Data.List.Forall2

/-!
# Computations that succeed

What is known of a computation that has ended with an answer, step by step:

* `bind_eq_ok`, `bind_eq_error` : the first part has an answer, and the second part has this one for it, or one of them
  has none;
* `ok_pair_inj`, `ok_triple_inj` : answers of several parts;
* `mapM_eq_ok`, `exists_mapM_eq_ok`, `mem_of_mapM_eq_ok`, `mapM_eq_error` : every element has its answer, or one is the
  first without;
* `mapM_eq_some`, `getElem?_of_mapM_eq_some`, `length_of_mapM_eq_some`, `exists_mapM_eq_some`, `mapM_eq_some_map` : the
  same for lookups, where having no answer says no more;
* `foldlM_induction` : what a step preserves, a run preserves; `foldlM_eq_error` : the first step without an answer
  ends a run.
-/

namespace CoverSearch

variable {ε α β : Type}

theorem bind_eq_ok {x : Except ε α} {f : α → Except ε β} {b : β} :
    (x >>= f) = .ok b ↔ ∃ a, x = .ok a ∧ f a = .ok b := by
  rcases x with e | a
  · constructor
    · intro h
      exact nomatch h
    · rintro ⟨a, h, -⟩
      exact nomatch h
  · refine ⟨fun h => ⟨a, rfl, h⟩, ?_⟩
    rintro ⟨a', h, hf⟩
    obtain rfl := Except.ok.inj h
    exact hf

theorem bind_eq_error {x : Except ε α} {f : α → Except ε β} {e : ε} :
    (x >>= f) = .error e ↔ x = .error e ∨ ∃ a, x = .ok a ∧ f a = .error e := by
  rcases x with e' | a
  · constructor
    · intro h
      exact Or.inl (congrArg Except.error (Except.error.inj h))
    · rintro (h | ⟨a, h, -⟩)
      · exact congrArg Except.error (Except.error.inj h)
      · exact nomatch h
  · constructor
    · intro h
      exact Or.inr ⟨a, rfl, h⟩
    · rintro (h | ⟨a', h, hf⟩)
      · exact nomatch h
      · obtain rfl := Except.ok.inj h
        exact hf

theorem pure_eq_ok {a b : α} : (pure a : Except ε α) = .ok b ↔ a = b :=
  ⟨fun h => Except.ok.inj h, fun h => congrArg Except.ok h⟩

theorem ok_pair_inj {a a' : α} {b b' : β} (h : (.ok (a, b) : Except ε (α × β)) = .ok (a', b')) : a = a' ∧ b = b' :=
  Prod.mk.inj (Except.ok.inj h)

theorem ok_triple_inj {γ : Type} {a a' : α} {b b' : β} {c c' : γ}
    (h : (.ok (a, b, c) : Except ε (α × β × γ)) = .ok (a', b', c')) : a = a' ∧ b = b' ∧ c = c' := by
  obtain ⟨ha, hrest⟩ := ok_pair_inj h
  exact ⟨ha, Prod.mk.inj hrest⟩

theorem toOption_eq_some {x : Except ε α} {a : α} : x.toOption = some a ↔ x = .ok a := by
  rcases x with e | b
  · constructor
    · intro h
      exact nomatch h
    · intro h
      exact nomatch h
  · exact ⟨fun h => congrArg Except.ok (Option.some.inj h), fun h => congrArg some (Except.ok.inj h)⟩

theorem mapM_eq_ok {f : α → Except ε β} {l : List α} {r : List β} :
    l.mapM f = .ok r ↔ List.Forall₂ (fun a b => f a = .ok b) l r := by
  induction l generalizing r with
  | nil =>
    rw [List.mapM_nil, pure_eq_ok, List.forall₂_nil_left_iff]
    exact eq_comm
  | cons a l ih =>
    rw [List.mapM_cons, bind_eq_ok, List.forall₂_cons_left_iff]
    constructor
    · rintro ⟨b, hb, h⟩
      obtain ⟨bs, hbs, h⟩ := bind_eq_ok.1 h
      exact ⟨b, bs, hb, ih.1 hbs, (pure_eq_ok.1 h).symm⟩
    · rintro ⟨b, bs, hb, hbs, rfl⟩
      exact ⟨b, hb, bind_eq_ok.2 ⟨bs, ih.2 hbs, rfl⟩⟩

theorem mapM_eq_ok_map {f : α → Except ε β} {k : α → β} {l : List α} (h : ∀ a ∈ l, f a = .ok (k a)) :
    l.mapM f = .ok (l.map k) := by
  rw [mapM_eq_ok, List.forall₂_map_right_iff, List.forall₂_same]
  exact h

theorem exists_mapM_eq_ok {f : α → Except ε β} {l : List α} : (∃ r, l.mapM f = .ok r) ↔ ∀ a ∈ l, ∃ b, f a = .ok b := by
  induction l with
  | nil => exact iff_of_true ⟨[], rfl⟩ fun _ h => absurd h List.not_mem_nil
  | cons a l ih =>
    rw [List.forall_mem_cons, ← ih]
    constructor
    · rintro ⟨r, hr⟩
      obtain ⟨b, bs, hb, hbs, rfl⟩ := List.forall₂_cons_left_iff.1 (mapM_eq_ok.1 hr)
      exact ⟨⟨b, hb⟩, bs, mapM_eq_ok.2 hbs⟩
    · rintro ⟨⟨b, hb⟩, bs, hbs⟩
      exact ⟨b :: bs, mapM_eq_ok.2 (.cons hb (mapM_eq_ok.1 hbs))⟩

/-- The first element without an answer decides, whatever comes behind it. -/
theorem mapM_eq_error {f : α → Except ε β} {l : List α} {e : ε} : l.mapM f = .error e ↔
    ∃ (i : Nat) (a : α), l[i]? = some a ∧ f a = .error e ∧ ∀ j < i, ∀ b, l[j]? = some b → ∃ c, f b = .ok c := by
  induction l with
  | nil =>
    constructor
    · intro h
      exact nomatch h
    · rintro ⟨i, a, ha, -⟩
      exact nomatch ha
  | cons x l ih =>
    rw [List.mapM_cons, bind_eq_error]
    constructor
    · rintro (hx | ⟨y, hx, h⟩)
      · exact ⟨0, x, rfl, hx, by omega⟩
      · obtain ⟨i, a, ha, he, hbefore⟩ := ih.1 ((bind_eq_error.1 h).resolve_right fun ⟨r, _, hr⟩ => nomatch hr)
        refine ⟨i + 1, a, ha, he, fun j hj b hb => ?_⟩
        cases j with
        | zero => exact ⟨y, Option.some.inj hb ▸ hx⟩
        | succ j => exact hbefore j (by omega) b hb
    · rintro ⟨i, a, ha, he, hbefore⟩
      cases i with
      | zero => exact Or.inl (Option.some.inj ha ▸ he)
      | succ i =>
        obtain ⟨y, hx⟩ := hbefore 0 (by omega) x rfl
        have hl := ih.2 ⟨i, a, ha, he, fun j hj b hb => hbefore (j + 1) (by omega) b hb⟩
        exact Or.inr ⟨y, hx, bind_eq_error.2 (Or.inl hl)⟩

theorem mapM_eq_some {f : α → Option β} {l : List α} {r : List β} :
    l.mapM f = some r ↔ List.Forall₂ (fun a b => f a = some b) l r := by
  induction l generalizing r with
  | nil =>
    rw [List.mapM_nil, List.forall₂_nil_left_iff]
    exact Option.some_inj.trans eq_comm
  | cons a l ih =>
    rw [List.mapM_cons, Option.bind_eq_bind, Option.bind_eq_some_iff, List.forall₂_cons_left_iff]
    constructor
    · rintro ⟨b, hb, h⟩
      obtain ⟨bs, hbs, h⟩ := Option.bind_eq_some_iff.1 h
      exact ⟨b, bs, hb, ih.1 hbs, (Option.some.inj h).symm⟩
    · rintro ⟨b, bs, hb, hbs, rfl⟩
      exact ⟨b, hb, Option.bind_eq_some_iff.2 ⟨bs, ih.2 hbs, rfl⟩⟩

theorem getElem?_of_mapM_eq_some {f : α → Option β} {l : List α} {r : List β} (h : l.mapM f = some r) (i : Nat) :
    r[i]? = l[i]?.bind f := by
  induction l generalizing r i with
  | nil =>
    obtain rfl := Option.some.inj h
    rfl
  | cons a l ih =>
    rw [List.mapM_cons] at h
    obtain ⟨b, hb, h⟩ := Option.bind_eq_some_iff.1 h
    obtain ⟨bs, hbs, h⟩ := Option.bind_eq_some_iff.1 h
    obtain rfl := Option.some.inj h
    cases i with
    | zero => exact hb.symm
    | succ i => exact ih hbs i

theorem length_of_mapM_eq_some {f : α → Option β} {l : List α} {r : List β} (h : l.mapM f = some r) :
    r.length = l.length := by
  induction l generalizing r with
  | nil =>
    obtain rfl := Option.some.inj h
    rfl
  | cons a l ih =>
    rw [List.mapM_cons] at h
    obtain ⟨b, -, h⟩ := Option.bind_eq_some_iff.1 h
    obtain ⟨bs, hbs, h⟩ := Option.bind_eq_some_iff.1 h
    obtain rfl := Option.some.inj h
    rw [List.length_cons, List.length_cons, ih hbs]

theorem exists_mapM_eq_some {f : α → Option β} {l : List α} :
    (∃ r, l.mapM f = some r) ↔ ∀ a ∈ l, ∃ b, f a = some b := by
  induction l with
  | nil => exact iff_of_true ⟨[], rfl⟩ fun _ h => absurd h List.not_mem_nil
  | cons a l ih =>
    rw [List.forall_mem_cons, ← ih]
    constructor
    · rintro ⟨r, hr⟩
      obtain ⟨b, bs, hb, hbs, rfl⟩ := List.forall₂_cons_left_iff.1 (mapM_eq_some.1 hr)
      exact ⟨⟨b, hb⟩, bs, mapM_eq_some.2 hbs⟩
    · rintro ⟨⟨b, hb⟩, bs, hbs⟩
      exact ⟨b :: bs, mapM_eq_some.2 (.cons hb (mapM_eq_some.1 hbs))⟩

theorem mapM_eq_some_map {f : α → Option β} {k : α → β} {l : List α} (h : ∀ a ∈ l, f a = some (k a)) :
    l.mapM f = some (l.map k) := by
  induction l with
  | nil => rfl
  | cons a l ih =>
    rw [List.mapM_cons, h a List.mem_cons_self, ih fun b hb => h b (List.mem_cons_of_mem a hb)]
    rfl

theorem mem_of_mapM_eq_ok {f : α → Except ε β} {l : List α} {r : List β} (h : l.mapM f = .ok r) {b : β} :
    b ∈ r ↔ ∃ a ∈ l, f a = .ok b := by
  have hall := mapM_eq_ok.1 h
  clear h
  induction hall with
  | nil => simp
  | cons ha hrest ih =>
    rw [List.mem_cons, List.exists_mem_cons_iff, ha, Except.ok.injEq]
    exact or_congr eq_comm ih

/-- The answer at a position is the answer for the element there. -/
theorem getElem?_of_mapM_eq_ok {f : α → Except ε β} {l : List α} {r : List β} (h : l.mapM f = .ok r)
    {i : Nat} {a : α} (ha : l[i]? = some a) : ∃ b, r[i]? = some b ∧ f a = .ok b := by
  have hall := mapM_eq_ok.1 h
  obtain ⟨hi, rfl⟩ := List.getElem?_eq_some_iff.1 ha
  have hr : i < r.length := hall.length_eq ▸ hi
  exact ⟨r[i], List.getElem?_eq_getElem hr, hall.get hi hr⟩

/-- A step that preserves `P` does so however often it is repeated. -/
theorem foldlM_induction {step : β → α → Except ε β} {P : β → Prop}
    (hstep : ∀ b a b', P b → step b a = .ok b' → P b') {l : List α} {b r : β} (hb : P b)
    (h : l.foldlM step b = .ok r) : P r := by
  induction l generalizing b with
  | nil => exact pure_eq_ok.1 h ▸ hb
  | cons a l ih =>
    rw [List.foldlM_cons] at h
    obtain ⟨b', hb', h⟩ := bind_eq_ok.1 h
    exact ih (hstep b a b' hb hb') h

theorem foldlM_eq_error {step : β → α → Except ε β} {l : List α} {b : β} {e : ε} : l.foldlM step b = .error e ↔
    ∃ before a after, l = before ++ a :: after ∧ ∃ b', before.foldlM step b = .ok b' ∧ step b' a = .error e := by
  induction l generalizing b with
  | nil =>
    constructor
    · intro h
      exact nomatch h
    · rintro ⟨before, a, after, hl, -⟩
      cases before <;> cases hl
  | cons x l ih =>
    rw [List.foldlM_cons, bind_eq_error]
    constructor
    · rintro (hx | ⟨b₁, hx, h⟩)
      · exact ⟨[], x, l, rfl, b, rfl, hx⟩
      · obtain ⟨before, a, after, rfl, b', hbefore, ha⟩ := ih.1 h
        exact ⟨x :: before, a, after, rfl, b', by rw [List.foldlM_cons, hx]; exact hbefore, ha⟩
    · rintro ⟨_ | ⟨y, before⟩, a, after, hl, b', hbefore, ha⟩
      · obtain ⟨rfl, rfl⟩ := List.cons.inj hl
        obtain rfl := pure_eq_ok.1 hbefore
        exact Or.inl ha
      · obtain ⟨rfl, rfl⟩ := List.cons.inj hl
        rw [List.foldlM_cons] at hbefore
        obtain ⟨b₁, hx, hbefore⟩ := bind_eq_ok.1 hbefore
        exact Or.inr ⟨b₁, hx, ih.2 ⟨before, a, after, rfl, b', hbefore, ha⟩⟩

end CoverSearch
