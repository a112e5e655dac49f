import CoverSearch.Json.Fields
import CoverSearch.Proofs.Success
import Mathlib.Data.List.Perm.Basic

/-!
# The fields of an object

A structure is read from an object when every key is a text, no field is named twice, and the value of each field, or
that it is missing, is accepted. What is asked about one field depends on the values under its names only.

* `Json.Text.Names` : a key that is one of some names;
* `Json.held` : the values under some names;
* `Json.bind_fields?_object_eq_some` : the values that are found for all fields;
* `Json.FieldRule`, `Json.Follows` : a reader of objects as what it asks about each field.
-/

namespace CoverSearch.Json

variable {α : Type} {accepted : List String} {fields fields' : List (Text × Json)} {key key' : Text} {v v' : Json}

/-! ## Values by name -/

/-- The key is one of the names. -/
def Text.Names (key : Text) (accepted : List String) : Prop := ∃ name ∈ key.decode?, String.ofList name ∈ accepted

instance : Decidable (key.Names accepted) :=
  match h : key.decode? with
  | none => .isFalse fun ⟨_, hname, _⟩ => nomatch h.symm.trans hname
  | some name => decidable_of_iff (String.ofList name ∈ accepted)
      ⟨fun hmem => ⟨name, h, hmem⟩, fun ⟨_, hname, hmem⟩ => Option.some.inj (hname.symm.trans h) ▸ hmem⟩

/-- The values under some names. -/
def held (accepted : List String) (fields : List (Text × Json)) : List Json :=
  (fields.filter fun f => f.1.Names accepted).map Prod.snd

theorem mem_held : v ∈ held accepted fields ↔ ∃ key : Text, key.Names accepted ∧ (key, v) ∈ fields := by
  simp only [held, List.mem_map, List.mem_filter, decide_eq_true_eq]
  constructor
  · rintro ⟨⟨key, v⟩, ⟨hmem, hkey⟩, rfl⟩
    exact ⟨key, hkey, hmem⟩
  · rintro ⟨key, hkey, hmem⟩
    exact ⟨(key, v), ⟨hmem, hkey⟩, rfl⟩

theorem held_append (accepted : List String) (fields fields' : List (Text × Json)) :
    held accepted (fields ++ fields') = held accepted fields ++ held accepted fields' := by
  rw [held, List.filter_append, List.map_append]
  rfl

theorem held_cons_of_names (h : key.Names accepted) (v : Json) (fields : List (Text × Json)) :
    held accepted ((key, v) :: fields) = v :: held accepted fields := by
  rw [held, List.filter_cons_of_pos (by simpa using h)]
  rfl

theorem held_cons_of_not_names (h : ¬ key.Names accepted) (v : Json) (fields : List (Text × Json)) :
    held accepted ((key, v) :: fields) = held accepted fields := by
  rw [held, List.filter_cons_of_neg (by simpa using h)]
  rfl

theorem held_perm (h : fields.Perm fields') (accepted : List String) :
    (held accepted fields).Perm (held accepted fields') := (h.filter _).map _

theorem held_sublist (h : fields.Sublist fields') (accepted : List String) :
    (held accepted fields).Sublist (held accepted fields') := (h.filter _).map _

/-! ## What is found -/

/-- Keys are names, in characters. -/
theorem held_eq {named : List (List Char × Json)}
    (h : fields.mapM (fun (key, v) => key.decode?.map (·, v)) = some named) (accepted : List String) :
    (named.filter fun f => accepted.contains (String.ofList f.1)).map Prod.snd = held accepted fields := by
  have hall := mapM_eq_some.1 h
  clear h
  induction hall with
  | nil => rfl
  | @cons f g fields named hf _ ih =>
    obtain ⟨key, v⟩ := f
    obtain ⟨name, hname, rfl⟩ := Option.map_eq_some_iff.1 hf
    by_cases hmem : String.ofList name ∈ accepted
    · rw [List.filter_cons_of_pos (by simpa using hmem), List.map_cons, ih, held_cons_of_names ⟨name, hname, hmem⟩]
    · have hnot : ¬ key.Names accepted := by
        rintro ⟨name', hname', hmem'⟩
        exact hmem (Option.some.inj (hname'.symm.trans hname) ▸ hmem')
      rw [List.filter_cons_of_neg (by simpa using hmem), ih, held_cons_of_not_names hnot]

/-- A field is not named twice. -/
theorem field?_eq_some {named : List (List Char × Json)}
    (h : fields.mapM (fun (key, v) => key.decode?.map (·, v)) = some named) {o : Option Json} :
    field? named accepted = some o ↔ held accepted fields = o.toList := by
  rw [← held_eq h, field?]
  rcases named.filter _ with _ | ⟨f, _ | ⟨f', rest⟩⟩ <;> cases o <;> simp

theorem exists_named : (∃ named, fields.mapM (fun (key, v) => key.decode?.map (·, v)) = some named) ↔
    ∀ f ∈ fields, f.1.decode?.isSome = true := by
  refine exists_mapM_eq_some.trans (forall₂_congr fun f _ => ?_)
  show (∃ b, f.1.decode?.map _ = some b) ↔ _
  rw [← Option.isSome_iff_exists, Option.isSome_map]

/-- What is made of the values that are found for all fields. -/
theorem bind_fields?_object_eq_some {names : List (List String)} {k : List (Option Json) → Option α} {r : α} :
    ((Json.object fields).fields? names).bind k = some r ↔ (∀ f ∈ fields, f.1.decode?.isSome = true) ∧
      ∃ vs, List.Forall₂ (fun accepted (o : Option Json) => held accepted fields = o.toList) names vs ∧
        k vs = some r := by
  rw [← exists_named, Option.bind_eq_some_iff]
  constructor
  · rintro ⟨vs, hvs, hk⟩
    obtain ⟨named, hnamed, hvs⟩ := Option.bind_eq_some_iff.1 hvs
    exact ⟨⟨named, hnamed⟩, vs, (mapM_eq_some.1 hvs).imp fun _ _ => (field?_eq_some hnamed).1, hk⟩
  · rintro ⟨⟨named, hnamed⟩, vs, hvs, hk⟩
    exact ⟨vs, Option.bind_eq_some_iff.2
      ⟨named, hnamed, mapM_eq_some.2 (hvs.imp fun _ _ => (field?_eq_some hnamed).2)⟩, hk⟩

theorem exists_forall₂_nil {β γ : Type} {R : β → γ → Prop} {P : List γ → Prop} :
    (∃ vs, List.Forall₂ R [] vs ∧ P vs) ↔ P [] := by
  simp only [List.forall₂_nil_left_iff, exists_eq_left]

/-- One field after the other. -/
theorem exists_forall₂_cons {β γ : Type} {R : β → γ → Prop} {P : List γ → Prop} {a : β} {l : List β} :
    (∃ vs, List.Forall₂ R (a :: l) vs ∧ P vs) ↔ ∃ b, R a b ∧ ∃ vs, List.Forall₂ R l vs ∧ P (b :: vs) := by
  constructor
  · rintro ⟨_, h, hP⟩
    obtain ⟨b, vs, hb, hvs, rfl⟩ := List.forall₂_cons_left_iff.1 h
    exact ⟨b, hb, vs, hvs, hP⟩
  · rintro ⟨b, hb, vs, hvs, hP⟩
    exact ⟨b :: vs, .cons hb hvs, hP⟩

/-! ## Readers -/

/-- One field of a structure: its names, and the structures that its value, or that there is none, allows. -/
structure FieldRule (α : Type) where
  accepted : List String
  allows : Option Json → α → Prop

/-- A reader of objects that asks each field for itself. -/
def Follows (read : Json → Option α) (rules : List (FieldRule α)) : Prop :=
  ∀ fields a, read (.object fields) = some a ↔ (∀ f ∈ fields, f.1.decode?.isSome = true) ∧
    ∀ rule ∈ rules, ∃ o : Option Json, held rule.accepted fields = o.toList ∧ rule.allows o a

end CoverSearch.Json
