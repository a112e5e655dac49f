import CoverSearch.Proofs.Json.Fields
import CoverSearch.Proofs.Json.Values
import CoverSearch.Record.Reader
import Mathlib.Logic.Relation

/-!
# Edits and faults of records

What a reader of records does not notice in the fields of an object, and what no other field can make up for. Both are
said of the fields as they are written, with the names that the reader knows; they are proved of any reader that asks
each field for itself.

* `Edge.Reweighs`, `Edge.Broken` : edges that differ in their weights only, and values that are no edges;
* `FieldEdit`, `FieldFault` : a change that makes no difference, and a reason against all objects that have it;
* `Json.FieldRule.Proper` : a field whose reader overlooks weights and accepts neither null nor broken edges;
* `Json.Follows.eq_of_edits`, `Json.Follows.eq_none_of_fault` : readers of such fields.
-/

namespace CoverSearch

open Json

variable {α : Type} {accepted : List String} {names required : List (List String)}
  {fields fields' : List (Text × Json)} {key : Text} {v v' a b : Json}

/-! ## Edges -/

namespace Edge

/-- The same two ends, each time with a weight that can be read, or with none. -/
inductive Reweighs : Json → Json → Prop
  | intro {a b : Json} {weight weight' : Option Json} : (∀ w ∈ weight, decodable (maxOpen - 3) w = true) →
      (∀ w ∈ weight', decodable (maxOpen - 3) w = true) →
      Reweighs (.array (a :: b :: weight.toList)) (.array (a :: b :: weight'.toList))

/-- Fewer than two values or more than three, or an end that is no word. -/
inductive Broken : Json → Prop
  | short {items : List Json} : items.length < 2 → Broken (.array items)
  | long {items : List Json} : 3 < items.length → Broken (.array items)
  | controller {a b : Json} {rest : List Json} : (∀ n, a ≠ .ofWord n) → Broken (.array (a :: b :: rest))
  | dependent {a b : Json} {rest : List Json} : (∀ n, b ≠ .ofWord n) → Broken (.array (a :: b :: rest))

theorem ofJson?_weighted {weight : Option Json} (h : ∀ w ∈ weight, decodable (maxOpen - 3) w = true) :
    ofJson? (.array (a :: b :: weight.toList)) = (do return ⟨← a.word?, ← b.word?⟩) := by
  cases weight with
  | none => rfl
  | some w => exact if_pos (h w rfl)

theorem Reweighs.ofJson?_eq (h : Reweighs v v') : ofJson? v' = ofJson? v := by
  cases h with
  | intro h h' => rw [ofJson?_weighted h, ofJson?_weighted h']

/-- What is read as an edge has its two ends. -/
theorem exists_of_ofJson? {e : Edge} (h : ofJson? v = some e) : ∃ a b rest, v = .array (a :: b :: rest) ∧
    rest.length ≤ 1 ∧ a.word? = some e.controller ∧ b.word? = some e.dependent := by
  unfold ofJson? at h
  split at h
  · next a b =>
    obtain ⟨x, hx, h⟩ := Option.bind_eq_some_iff.1 h
    obtain ⟨y, hy, h⟩ := Option.bind_eq_some_iff.1 h
    obtain rfl := Option.some.inj h
    exact ⟨a, b, [], rfl, Nat.zero_le 1, hx, hy⟩
  · next a b weight =>
    split at h
    · obtain ⟨x, hx, h⟩ := Option.bind_eq_some_iff.1 h
      obtain ⟨y, hy, h⟩ := Option.bind_eq_some_iff.1 h
      obtain rfl := Option.some.inj h
      exact ⟨a, b, [weight], rfl, Nat.le_refl 1, hx, hy⟩
    · cases h
  · cases h

theorem Broken.ofJson?_eq_none (h : Broken v) (hv : ∀ n, .number n ∈ v.tokens → n.Writable) : ofJson? v = none := by
  rw [Option.eq_none_iff_forall_ne_some]
  intro e he
  obtain ⟨a, b, rest, rfl, hrest, ha, hb⟩ := exists_of_ofJson? he
  have hpart : ∀ item ∈ a :: b :: rest, ∀ n, .number n ∈ item.tokens → n.Writable :=
    fun item hitem n hn => hv n (tokens_subset_array hitem hn)
  cases h with
  | short hlen =>
    rw [List.length_cons, List.length_cons] at hlen
    omega
  | long hlen =>
    rw [List.length_cons, List.length_cons] at hlen
    omega
  | controller hend =>
    exact hend _ ((word?_eq_some_iff (hpart a (by simp))).1 ha)
  | dependent hend =>
    exact hend _ ((word?_eq_some_iff (hpart b (by simp))).1 hb)

end Edge

/-! ## Fields -/

/-- One change to the fields of an object that makes no difference to a reader who knows the names. -/
inductive FieldEdit (names : List (List String)) : List (Text × Json) → List (Text × Json) → Prop
  /-- Another order. -/
  | permute {fields fields' : List (Text × Json)} : fields.Perm fields' → FieldEdit names fields fields'
  /-- One more field, of a name that is not known. -/
  | insert {before after : List (Text × Json)} {key : Text} {v : Json} : key.decode?.isSome = true →
      (∀ accepted ∈ names, ¬ key.Names accepted) → FieldEdit names (before ++ after) (before ++ (key, v) :: after)
  /-- Another name for the same field. -/
  | rename {before after : List (Text × Json)} {accepted : List String} {key key' : Text} {v : Json} :
      accepted ∈ names → key.Names accepted → key'.Names accepted →
      FieldEdit names (before ++ (key, v) :: after) (before ++ (key', v) :: after)
  /-- Another weight of an edge. -/
  | reweigh {before after : List (Text × Json)} {key : Text} {edges edges' : List Json} {e e' : Json} :
      key.Names ["edges"] → Edge.Reweighs e e' →
      FieldEdit names (before ++ (key, .array (edges ++ e :: edges')) :: after)
        (before ++ (key, .array (edges ++ e' :: edges')) :: after)

/-- Something in the fields of an object that a reader who knows the names, some of them required, does not accept. -/
inductive FieldFault (names required : List (List String)) (fields : List (Text × Json)) : Prop
  /-- The same field twice. -/
  | repeated {accepted : List String} {key key' : Text} {v v' : Json} : accepted ∈ names → key.Names accepted →
      key'.Names accepted → [(key, v), (key', v')].Sublist fields → FieldFault names required fields
  /-- No field under a required name. -/
  | missing {accepted : List String} : accepted ∈ required → (∀ f ∈ fields, ¬ f.1.Names accepted) →
      FieldFault names required fields
  /-- Null under a known name. -/
  | null {accepted : List String} {key : Text} : accepted ∈ names → key.Names accepted → (key, .null) ∈ fields →
      FieldFault names required fields
  /-- An edge that is none. -/
  | edge {key : Text} {edges : List Json} {e : Json} : ["edges"] ∈ names → key.Names ["edges"] →
      (key, .array edges) ∈ fields → e ∈ edges → Edge.Broken e → FieldFault names required fields

/-! ## Readers -/

namespace Json

/-- A field whose reader overlooks the weights of edges, and accepts neither null nor an edge that is none. -/
structure FieldRule.Proper (rule : FieldRule α) : Prop where
  null : ∀ r, ¬ rule.allows (some .null) r
  reweigh : "edges" ∈ rule.accepted → ∀ edges edges' x x', Edge.Reweighs x x' → ∀ r,
    rule.allows (some (.array (edges ++ x :: edges'))) r ↔ rule.allows (some (.array (edges ++ x' :: edges'))) r
  broken : "edges" ∈ rule.accepted → ∀ edges, ∀ x ∈ edges, Edge.ofJson? x = none → ∀ r,
    ¬ rule.allows (some (.array edges)) r

theorem Text.names_of_subset (h : key.Names ["edges"]) (hmem : "edges" ∈ accepted) : key.Names accepted := by
  obtain ⟨name, hname, hedges⟩ := h
  exact ⟨name, hname, List.mem_singleton.1 hedges ▸ hmem⟩

/-- A key under two names is under names that have one in common. -/
theorem Text.mem_of_names (h : key.Names ["edges"]) (haccepted : key.Names accepted) : "edges" ∈ accepted := by
  obtain ⟨name, hname, hedges⟩ := h
  obtain ⟨name', hname', hmem⟩ := haccepted
  obtain rfl := Option.some.inj (hname'.symm.trans hname)
  exact List.mem_singleton.1 hedges ▸ hmem

/-- No two fields share a name. -/
def Distinct (names : List (List String)) : Prop := names.Pairwise fun l l' => ∀ name ∈ l, name ∉ l'

instance : Decidable (Distinct names) := inferInstanceAs (Decidable (names.Pairwise fun l l' => ∀ name ∈ l, name ∉ l'))

theorem Distinct.eq_of_names (h : Distinct names) {accepted' : List String} (hmem : accepted ∈ names)
    (hmem' : accepted' ∈ names) (hkey : key.Names accepted) (hkey' : key.Names accepted') : accepted = accepted' := by
  by_contra hne
  obtain ⟨name, hname, hin⟩ := hkey
  obtain ⟨name', hname', hin'⟩ := hkey'
  obtain rfl := Option.some.inj (hname'.symm.trans hname)
  have : Std.Symm fun l l' : List String => ∀ name ∈ l, name ∉ l' := ⟨fun _ _ h name hl hl' => h name hl' hl⟩
  exact List.Pairwise.forall h hmem hmem' hne _ hin hin'

end Json

/-! ### Edits -/

/-- At most one value, in whatever order. -/
theorem eq_toList_of_perm {l l' : List Json} (h : l.Perm l') (o : Option Json) : l = o.toList ↔ l' = o.toList := by
  cases o with
  | none =>
    constructor <;> rintro rfl
    · exact List.nil_perm.1 h
    · exact List.perm_nil.1 h
  | some v =>
    constructor <;> rintro rfl
    · exact List.perm_singleton.1 h.symm
    · exact List.perm_singleton.1 h

/-- A value between others is the only one where there is at most one. -/
theorem exists_append_cons_eq_toList {l l' : List Json} {P : Option Json → Prop} :
    (∃ o : Option Json, l ++ v :: l' = o.toList ∧ P o) ↔ l = [] ∧ l' = [] ∧ P (some v) := by
  constructor
  · rintro ⟨_ | u, ho, hP⟩
    · exact absurd ho (List.append_ne_nil_of_right_ne_nil l (List.cons_ne_nil v l'))
    · rw [Option.toList_some, List.append_eq_singleton_iff] at ho
      rcases ho with ⟨rfl, h⟩ | ⟨-, h⟩
      · obtain ⟨rfl, rfl⟩ := List.cons.inj h
        exact ⟨rfl, rfl, hP⟩
      · cases h
  · rintro ⟨rfl, rfl, hP⟩
    exact ⟨some v, rfl, hP⟩

namespace FieldEdit

theorem isSome_iff (h : FieldEdit names fields fields') :
    (∀ f ∈ fields, f.1.decode?.isSome = true) ↔ ∀ f ∈ fields', f.1.decode?.isSome = true := by
  have hsome : ∀ {key : Text} {accepted}, key.Names accepted → key.decode?.isSome = true :=
    fun ⟨_, hname, _⟩ => Option.isSome_iff_exists.2 ⟨_, hname⟩
  cases h with
  | permute hperm => simp only [hperm.mem_iff]
  | insert hkey _ => simp only [List.forall_mem_append, List.forall_mem_cons, hkey, true_and]
  | rename _ hkey hkey' =>
    simp only [List.forall_mem_append, List.forall_mem_cons, hsome hkey, hsome hkey', true_and]
  | reweigh hkey _ => simp only [List.forall_mem_append, List.forall_mem_cons]

/-- The answer of a field to an edit. -/
theorem held_iff (h : FieldEdit names fields fields') (hdistinct : Distinct names)
    (hmem : accepted ∈ names) {P : Option Json → Prop}
    (hweights : "edges" ∈ accepted → ∀ edges edges' x x', Edge.Reweighs x x' →
      (P (some (.array (edges ++ x :: edges'))) ↔ P (some (.array (edges ++ x' :: edges'))))) :
    (∃ o : Option Json, held accepted fields = o.toList ∧ P o) ↔
      ∃ o : Option Json, held accepted fields' = o.toList ∧ P o := by
  cases h with
  | permute hperm =>
    refine exists_congr fun o => and_congr_left fun _ => ?_
    exact eq_toList_of_perm (held_perm hperm accepted) o
  | insert _ hunknown =>
    rw [held_append, held_append, held_cons_of_not_names (hunknown accepted hmem)]
  | @rename before after accepted' key key' v hmem' hkey hkey' =>
    rw [held_append, held_append]
    by_cases hsame : accepted = accepted'
    · rw [held_cons_of_names (hsame ▸ hkey), held_cons_of_names (hsame ▸ hkey')]
    · rw [held_cons_of_not_names fun h => hsame (hdistinct.eq_of_names hmem hmem' h hkey),
        held_cons_of_not_names fun h => hsame (hdistinct.eq_of_names hmem hmem' h hkey')]
  | @reweigh before after key edges edges' x x' hkey hx =>
    rw [held_append, held_append]
    by_cases hedges : "edges" ∈ accepted
    · have hnames := Text.names_of_subset hkey hedges
      rw [held_cons_of_names hnames, held_cons_of_names hnames, exists_append_cons_eq_toList,
        exists_append_cons_eq_toList, hweights hedges edges edges' x x' hx]
    · have hnot : ¬ key.Names accepted := fun h => hedges (Text.mem_of_names hkey h)
      rw [held_cons_of_not_names hnot, held_cons_of_not_names hnot]

end FieldEdit

namespace Json.Follows

variable {read : Json → Option α} {rules : List (FieldRule α)}

theorem eq_of_edit (hread : Follows read rules) (hproper : ∀ rule ∈ rules, rule.Proper)
    (hdistinct : Distinct (rules.map FieldRule.accepted))
    (h : FieldEdit (rules.map FieldRule.accepted) fields fields') : read (.object fields) = read (.object fields') := by
  refine Option.ext fun r => ?_
  rw [hread, hread, h.isSome_iff]
  refine and_congr_right fun _ => forall₂_congr fun rule hrule => ?_
  exact h.held_iff hdistinct (List.mem_map_of_mem hrule) fun hedges edges edges' x x' hx =>
    (hproper rule hrule).reweigh hedges edges edges' x x' hx r

/-- Edits make no difference, however many. -/
theorem eq_of_edits (hread : Follows read rules) (hproper : ∀ rule ∈ rules, rule.Proper)
    (hdistinct : Distinct (rules.map FieldRule.accepted))
    (h : Relation.EqvGen (FieldEdit (rules.map FieldRule.accepted)) fields fields') :
    read (.object fields) = read (.object fields') := by
  induction h with
  | rel _ _ h => exact hread.eq_of_edit hproper hdistinct h
  | refl => rfl
  | symm _ _ _ ih => exact ih.symm
  | trans _ _ _ _ _ ih ih' => exact ih.trans ih'

/-- Where an object is read, a value under the names of a field is the only one, and it is allowed. -/
theorem allows_of_mem_held (hread : Follows read rules) {r : α} (hr : read (.object fields) = some r)
    {rule : FieldRule α} (hrule : rule ∈ rules) (hv : v ∈ held rule.accepted fields) :
    held rule.accepted fields = [v] ∧ rule.allows (some v) r := by
  obtain ⟨o, ho, hallows⟩ := ((hread fields r).1 hr).2 rule hrule
  rw [ho, Option.mem_toList] at hv
  obtain rfl := hv
  exact ⟨ho, hallows⟩

/-- Where an object is read, a field that has to be there has a value. -/
theorem exists_mem_held (hread : Follows read rules) {r : α} (hr : read (.object fields) = some r)
    {rule : FieldRule α} (hrule : rule ∈ rules) (hnone : ¬ rule.allows none r) : ∃ v, v ∈ held rule.accepted fields := by
  obtain ⟨_ | v, ho, hallows⟩ := ((hread fields r).1 hr).2 rule hrule
  · exact absurd hallows hnone
  · exact ⟨v, ho ▸ List.mem_singleton_self v⟩

/-- A fault is found, whatever else is in the object. -/
theorem eq_none_of_fault (hread : Follows read rules) (hproper : ∀ rule ∈ rules, rule.Proper)
    (hrequired : ∀ accepted ∈ required, ∃ rule ∈ rules, rule.accepted = accepted ∧ ∀ r, ¬ rule.allows none r)
    (h : FieldFault (rules.map FieldRule.accepted) required fields)
    (hnumbers : ∀ n, .number n ∈ (Json.object fields).tokens → n.Writable) : read (.object fields) = none := by
  rw [Option.eq_none_iff_forall_ne_some]
  intro r hr
  cases h with
  | @repeated accepted key key' v v' hmem hkey hkey' hsub =>
    obtain ⟨rule, hrule, rfl⟩ := List.mem_map.1 hmem
    have hvalue := mem_held.2 ⟨key, hkey, hsub.subset List.mem_cons_self⟩
    have hlen := (held_sublist hsub rule.accepted).length_le
    rw [held_cons_of_names hkey, held_cons_of_names hkey', (hread.allows_of_mem_held hr hrule hvalue).1] at hlen
    exact absurd (Nat.le_of_succ_le_succ hlen) (Nat.not_succ_le_zero _)
  | missing hmem hnone =>
    obtain ⟨rule, hrule, rfl, hnot⟩ := hrequired _ hmem
    obtain ⟨v, hvalue⟩ := hread.exists_mem_held hr hrule (hnot r)
    obtain ⟨key, hkey, hfield⟩ := mem_held.1 hvalue
    exact hnone _ hfield hkey
  | @null accepted key hmem hkey hnull =>
    obtain ⟨rule, hrule, rfl⟩ := List.mem_map.1 hmem
    have hallows := (hread.allows_of_mem_held hr hrule (mem_held.2 ⟨key, hkey, hnull⟩)).2
    exact (hproper rule hrule).null r hallows
  | @edge key edges x hmem hkey hfield hedge hbroken =>
    obtain ⟨rule, hrule, haccepted⟩ := List.mem_map.1 hmem
    have hvalue := mem_held.2 ⟨key, haccepted.symm ▸ hkey, hfield⟩
    have hallows := (hread.allows_of_mem_held hr hrule hvalue).2
    have hnone : Edge.ofJson? x = none := hbroken.ofJson?_eq_none fun n hn =>
      hnumbers n (tokens_subset_object hfield (tokens_subset_array hedge hn))
    exact (hproper rule hrule).broken (haccepted ▸ List.mem_singleton_self _) edges x hedge hnone r hallows

end Json.Follows

end CoverSearch
