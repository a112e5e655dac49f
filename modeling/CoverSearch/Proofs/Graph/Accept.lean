import CoverSearch.Proofs.Graph.Build
import CoverSearch.Proofs.Graph.Discovery

/-!
# Which records have a graph

A record has a graph when its blocks are distinct, the sentinel is one of them, its edges run between listed nodes, and
a walk leads from the sentinel to every node. The checks are made in this order, so a reason against a record is the
first that applies, and of its kind the first in the record.

* `Record.Accepted`, `Record.Refused` : the condition, and the reasons against it;
* `firstRepeat?_eq_some`, `climbsFrom_eq_error` : what the first and the last check find;
* `Record.Refused.ofRecord_eq`, `Record.Accepted.exists_graph` : the checks answer as they should;
* `Record.refused_or_accepted` : one of the two holds of every record;
* `ofRecord_accepts_iff` : the result as a whole.
-/

namespace CoverSearch

variable {r : Record} {e : InputError} {n root v : Nat} {edges : List (Nat × Nat)}

namespace Record

/-- The edges as pairs of positions. -/
def links (r : Record) : List (Nat × Nat) := r.edges.map fun e => (e.controller.toNat, e.dependent.toNat)

/-- Both ends of an edge are listed nodes. -/
def Holds (r : Record) (e : Edge) : Prop := e.controller.toNat < r.nodes.length ∧ e.dependent.toNat < r.nodes.length

/-- A walk along the edges leads from a root sentinel to a position. -/
def Reaches (r : Record) (v : Nat) : Prop := ∃ root w, r.nodes[root]? = some rootBlock ∧ IsWalk r.links root v w

structure Accepted (r : Record) : Prop where
  nodup : r.nodes.Nodup
  root_mem : rootBlock ∈ r.nodes
  holds : ∀ e ∈ r.edges, r.Holds e
  reaches : ∀ v < r.nodes.length, r.Reaches v

/-- The reason against a record: the first kind that applies, at its first place. -/
inductive Refused (r : Record) : InputError → Prop
  | repeated {before after : List UInt64} {b : UInt64} : r.nodes = before ++ b :: after → before.Nodup → b ∈ before →
      Refused r (.duplicateBlock r.unit b)
  | rootless : r.nodes.Nodup → rootBlock ∉ r.nodes → Refused r (.missingRoot r.unit)
  | outside {before after : List Edge} {e : Edge} : r.nodes.Nodup → rootBlock ∈ r.nodes →
      r.edges = before ++ e :: after → (∀ d ∈ before, r.Holds d) → ¬ r.Holds e →
      Refused r (.edgeOutOfBounds r.unit e.controller e.dependent r.nodes.length)
  | unreached {v : Nat} {b : UInt64} : r.nodes.Nodup → rootBlock ∈ r.nodes → (∀ e ∈ r.edges, r.Holds e) →
      r.nodes[v]? = some b → (∀ u < v, r.Reaches u) → ¬ r.Reaches v → Refused r (.unreachable r.unit b)

/-- Where the blocks are distinct there is one root. -/
theorem reaches_iff (hnodup : r.nodes.Nodup) (hroot : r.nodes.idxOf? rootBlock = some root) :
    r.Reaches v ↔ ∃ w, IsWalk r.links root v w := by
  have hblock := Graph.getElem?_of_idxOf? hroot
  constructor
  · rintro ⟨root', w, hblock', hw⟩
    obtain ⟨hlt, heq⟩ := List.getElem?_eq_some_iff.1 hblock
    obtain ⟨hlt', heq'⟩ := List.getElem?_eq_some_iff.1 hblock'
    obtain rfl := (List.Nodup.getElem_inj_iff hnodup).1 (heq.trans heq'.symm)
    exact ⟨w, hw⟩
  · rintro ⟨w, hw⟩
    exact ⟨root, w, hblock, hw⟩

theorem idxOf?_eq_none {a : UInt64} {l : List UInt64} : l.idxOf? a = none ↔ a ∉ l := by
  rw [← List.isSome_idxOf?, Option.not_isSome_iff_eq_none]

end Record

namespace Graph

/-! ## The checks -/

theorem firstRepeat?_eq_some {α : Type} [BEq α] [LawfulBEq α] {seen l : List α} {b : α} :
    firstRepeat? seen l = some b ↔
      ∃ before after, l = before ++ b :: after ∧ before.Nodup ∧ (∀ a ∈ before, a ∉ seen) ∧ (b ∈ before ∨ b ∈ seen) := by
  induction l generalizing seen with
  | nil => simp [firstRepeat?]
  | cons a l ih =>
    rw [firstRepeat?]
    split <;> rename_i ha
    · have ha := List.contains_iff_mem.1 ha
      constructor
      · intro h
        obtain rfl := Option.some.inj h
        exact ⟨[], l, rfl, List.nodup_nil, fun x hx => absurd hx List.not_mem_nil, Or.inr ha⟩
      · rintro ⟨before, after, hl, -, hfresh, -⟩
        cases before with
        | nil => exact congrArg some (List.cons.inj hl).1
        | cons x before =>
          obtain ⟨rfl, -⟩ := List.cons.inj hl
          exact absurd ha (hfresh _ List.mem_cons_self)
    · have ha : a ∉ seen := fun h => ha (List.contains_iff_mem.2 h)
      rw [ih]
      constructor
      · rintro ⟨before, after, rfl, hnodup, hfresh, hb⟩
        refine ⟨a :: before, after, rfl, List.nodup_cons.2 ⟨fun h => hfresh a h List.mem_cons_self, hnodup⟩,
          List.forall_mem_cons.2 ⟨ha, fun x hx h => hfresh x hx (List.mem_cons_of_mem a h)⟩, ?_⟩
        grind
      · rintro ⟨before, after, hl, hnodup, hfresh, hb⟩
        cases before with
        | nil =>
          obtain ⟨rfl, -⟩ := List.cons.inj hl
          exact absurd (hb.resolve_left List.not_mem_nil) ha
        | cons x before =>
          obtain ⟨rfl, rfl⟩ := List.cons.inj hl
          obtain ⟨hx, hnodup⟩ := List.nodup_cons.1 hnodup
          exact ⟨before, after, rfl, hnodup, by grind, by grind⟩

theorem firstRepeat?_nil_eq_none {l : List UInt64} : firstRepeat? [] l = none ↔ l.Nodup := by
  simp [firstRepeat?_eq_none]

theorem firstRepeat?_nil_eq_some {l : List UInt64} {b : UInt64} :
    firstRepeat? [] l = some b ↔ ∃ before after, l = before ++ b :: after ∧ before.Nodup ∧ b ∈ before := by
  simp [firstRepeat?_eq_some]

theorem find?_vertex_eq_none {found : List Climb} :
    found.find? (·.vertex == v) = none ↔ ¬ ∃ c ∈ found, c.vertex = v := by simp

/-- The first position that no walk leads to is named. -/
theorem climbsFrom_eq_error (hroot : root < n) (hinside : ∀ a b, (a, b) ∈ edges → b < n) :
    climbsFrom n edges root = .error v ↔
      v < n ∧ (∀ u < v, ∃ w, IsWalk edges root u w) ∧ ¬ ∃ w, IsWalk edges root v w := by
  simp only [← mem_reach_iff hroot hinside]
  rw [climbsFrom, mapM_eq_error]
  constructor
  · rintro ⟨i, a, ha, he, hbefore⟩
    obtain ⟨hi, rfl⟩ := List.getElem?_eq_some_iff.1 ha
    rw [List.length_range] at hi
    rw [List.getElem_range] at he
    rcases hc : (reach n edges root).find? (·.vertex == i) with _ | c <;> rw [hc] at he
    · obtain rfl := Except.error.inj he
      refine ⟨hi, fun u hu => ?_, find?_vertex_eq_none.1 hc⟩
      obtain ⟨l, hl⟩ := hbefore u hu u (List.getElem?_range (hu.trans hi))
      by_contra hnot
      rw [find?_vertex_eq_none.2 hnot] at hl
      exact nomatch hl
    · exact nomatch he
  · rintro ⟨hv, hbefore, hnot⟩
    refine ⟨v, v, List.getElem?_range hv, by rw [find?_vertex_eq_none.2 hnot], fun u hu b hb => ?_⟩
    rw [List.getElem?_range (hu.trans hv)] at hb
    obtain rfl := Option.some.inj hb
    rcases hd : (reach n edges root).find? (·.vertex == u) with _ | d
    · exact absurd (hbefore u hu) (find?_vertex_eq_none.1 hd)
    · exact ⟨d.toList, by rw [hd]⟩

theorem isWalk_eraseDups {w : List Nat} : IsWalk edges.eraseDups root v w ↔ IsWalk edges root v w :=
  ⟨fun h => h.mono fun _ => List.mem_eraseDups.1, fun h => h.mono fun _ => List.mem_eraseDups.2⟩

theorem snd_lt_of_holds (hholds : ∀ e ∈ r.edges, r.Holds e) (a b : Nat) (h : (a, b) ∈ r.links.eraseDups) :
    b < r.nodes.length := by
  obtain ⟨e, he, heq⟩ := List.mem_map.1 (List.mem_eraseDups.1 h)
  obtain ⟨-, rfl⟩ := Prod.mk.inj heq
  exact (hholds e he).2

theorem climbsFrom_links_eq_error (hnodup : r.nodes.Nodup) (hroot : r.nodes.idxOf? rootBlock = some root)
    (hholds : ∀ e ∈ r.edges, r.Holds e) : climbsFrom r.nodes.length r.links.eraseDups root = .error v ↔
      v < r.nodes.length ∧ (∀ u < v, r.Reaches u) ∧ ¬ r.Reaches v := by
  have hlt : root < r.nodes.length := (List.getElem?_eq_some_iff.1 (getElem?_of_idxOf? hroot)).1
  rw [climbsFrom_eq_error hlt (snd_lt_of_holds hholds)]
  simp only [isWalk_eraseDups, Record.reaches_iff hnodup hroot]

theorem find?_outside_eq_some {e : Edge} :
    r.edges.find? (fun e => r.nodes.length ≤ e.controller.toNat || r.nodes.length ≤ e.dependent.toNat) = some e ↔
      ∃ before after, r.edges = before ++ e :: after ∧ (∀ d ∈ before, r.Holds d) ∧ ¬ r.Holds e := by
  simp only [List.find?_eq_some_iff_append, Record.Holds, Bool.or_eq_true, decide_eq_true_eq, Bool.not_eq_true',
    Bool.or_eq_false_iff, decide_eq_false_iff_not, Nat.not_le]
  grind

theorem find?_outside_eq_none :
    r.edges.find? (fun e => r.nodes.length ≤ e.controller.toNat || r.nodes.length ≤ e.dependent.toNat) = none ↔
      ∀ e ∈ r.edges, r.Holds e := by
  simp [Record.Holds]

/-! ## Their order -/

/-- The first three checks have passed. -/
theorem ofRecord_of_holds (hnodup : r.nodes.Nodup) (hroot : r.nodes.idxOf? rootBlock = some root)
    (hholds : ∀ e ∈ r.edges, r.Holds e) : ofRecord r =
      match climbsFrom r.nodes.length r.links.eraseDups root with
      | .error v => .error (.unreachable r.unit (r.nodes.getD v 0))
      | .ok climbs => .ok { unit := r.unit, blocks := r.nodes, edges := r.links.eraseDups, root, climbs,
                            branches := r.branches, assertions := r.assertions } := by
  simp only [ofRecord, firstRepeat?_nil_eq_none.2 hnodup, hroot, find?_outside_eq_none.2 hholds]
  rfl

end Graph

namespace Record

theorem Refused.ofRecord_eq (h : r.Refused e) : Graph.ofRecord r = .error e := by
  cases h with
  | repeated hnodes hbefore hb =>
    have hrepeat := Graph.firstRepeat?_nil_eq_some.2 ⟨_, _, hnodes, hbefore, hb⟩
    simp only [Graph.ofRecord, hrepeat]
  | rootless hnodup hroot =>
    simp only [Graph.ofRecord, Graph.firstRepeat?_nil_eq_none.2 hnodup, idxOf?_eq_none.2 hroot]
  | outside hnodup hmem hedges hbefore he =>
    obtain ⟨root, hroot⟩ := Option.isSome_iff_exists.1 (List.isSome_idxOf?.2 hmem)
    have hedge := Graph.find?_outside_eq_some.2 ⟨_, _, hedges, hbefore, he⟩
    simp only [Graph.ofRecord, Graph.firstRepeat?_nil_eq_none.2 hnodup, hroot, hedge]
  | unreached hnodup hmem hholds hv hbefore hnot =>
    obtain ⟨root, hroot⟩ := Option.isSome_iff_exists.1 (List.isSome_idxOf?.2 hmem)
    obtain ⟨hlt, rfl⟩ := List.getElem?_eq_some_iff.1 hv
    have hclimbs := (Graph.climbsFrom_links_eq_error hnodup hroot hholds).2 ⟨hlt, hbefore, hnot⟩
    rw [Graph.ofRecord_of_holds hnodup hroot hholds, hclimbs]
    simp only [List.getD_eq_getElem _ _ hlt]

theorem Accepted.exists_graph (h : r.Accepted) : ∃ g, Graph.ofRecord r = .ok g := by
  obtain ⟨root, hroot⟩ := Option.isSome_iff_exists.1 (List.isSome_idxOf?.2 h.root_mem)
  rw [Graph.ofRecord_of_holds h.nodup hroot h.holds]
  rcases hclimbs : Graph.climbsFrom r.nodes.length r.links.eraseDups root with v | climbs
  · obtain ⟨hv, -, hnot⟩ := (Graph.climbsFrom_links_eq_error h.nodup hroot h.holds).1 hclimbs
    exact absurd (h.reaches v hv) hnot
  · exact ⟨_, rfl⟩

theorem refused_or_accepted (r : Record) : (∃ e, r.Refused e) ∨ r.Accepted := by
  by_cases hnodup : r.nodes.Nodup
  swap
  · rcases hrepeat : Graph.firstRepeat? [] r.nodes with _ | b
    · exact absurd (Graph.firstRepeat?_nil_eq_none.1 hrepeat) hnodup
    · obtain ⟨before, after, hnodes, hbefore, hb⟩ := Graph.firstRepeat?_nil_eq_some.1 hrepeat
      exact Or.inl ⟨_, .repeated hnodes hbefore hb⟩
  by_cases hmem : rootBlock ∈ r.nodes
  swap
  · exact Or.inl ⟨_, .rootless hnodup hmem⟩
  by_cases hholds : ∀ e ∈ r.edges, r.Holds e
  swap
  · obtain ⟨e, hedge⟩ := Option.ne_none_iff_exists'.1 (mt Graph.find?_outside_eq_none.1 hholds)
    obtain ⟨before, after, hedges, hbefore, he⟩ := Graph.find?_outside_eq_some.1 hedge
    exact Or.inl ⟨_, .outside hnodup hmem hedges hbefore he⟩
  by_cases hreaches : ∀ v < r.nodes.length, r.Reaches v
  · exact Or.inr ⟨hnodup, hmem, hholds, hreaches⟩
  · -- the least of the positions that no walk leads to
    classical
    have hex : ∃ v, v < r.nodes.length ∧ ¬ r.Reaches v := by simpa using hreaches
    obtain ⟨hlt, hnot⟩ := Nat.find_spec hex
    refine Or.inl ⟨_, .unreached hnodup hmem hholds (List.getElem?_eq_getElem hlt) (fun u hu => ?_) hnot⟩
    by_contra hnot
    exact Nat.find_min hex hu ⟨hu.trans hlt, hnot⟩

end Record

/-! ## Main statement -/

/-- A record has a graph exactly when its blocks are distinct, the sentinel is among them, all edges run between listed
nodes, and every node is reached. Any other record is refused for the first reason that applies. The vertices of a graph
are the listed nodes, in order. -/
theorem ofRecord_accepts_iff (r : Record) :
    ((∃ g, Graph.ofRecord r = .ok g) ↔ r.nodes.Nodup ∧ rootBlock ∈ r.nodes ∧ (∀ e ∈ r.edges, r.Holds e) ∧
        ∀ v < r.nodes.length, r.Reaches v) ∧
      (∀ e, Graph.ofRecord r = .error e ↔ r.Refused e) ∧
      ∀ g, Graph.ofRecord r = .ok g → g.vertices = r.nodes.map fun b => ⟨r.unit, b⟩ := by
  refine ⟨⟨?_, ?_⟩, fun e => ⟨?_, Record.Refused.ofRecord_eq⟩, ?_⟩
  · rintro ⟨g, hg⟩
    rcases r.refused_or_accepted with ⟨e, he⟩ | ⟨hnodup, hmem, hholds, hreaches⟩
    · exact nomatch hg.symm.trans he.ofRecord_eq
    · exact ⟨hnodup, hmem, hholds, hreaches⟩
  · rintro ⟨hnodup, hmem, hholds, hreaches⟩
    exact Record.Accepted.exists_graph ⟨hnodup, hmem, hholds, hreaches⟩
  · intro h
    rcases r.refused_or_accepted with ⟨e', he'⟩ | haccepted
    · obtain rfl := Except.error.inj (h.symm.trans he'.ofRecord_eq)
      exact he'
    · obtain ⟨g, hg⟩ := haccepted.exists_graph
      exact nomatch h.symm.trans hg
  · intro g hg
    obtain ⟨-, -, -, -, hunit, hblocks, -⟩ := Graph.ofRecord_eq_ok hg
    rw [Graph.vertices, hunit, hblocks]

/-- Of four reasons the one that is looked for first is given. -/
example : Graph.ofRecord { unit := "f", nodes := [4, 7, 7, 4], edges := [⟨0, 9⟩] } =
    .error (.duplicateBlock "f" 7) := by
  rfl

end CoverSearch
