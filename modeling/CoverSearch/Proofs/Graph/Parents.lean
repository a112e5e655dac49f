import CoverSearch.Proofs.Graph.Paths

/-!
# Predecessors on cached paths

The predecessor of a vertex is the first of its parents that breadth-first search follows, and the search follows
vertices in the order in which it found them. That is the lexicographic order of their paths, not the order in which
they are declared. The two are the same among parents that are found from one vertex: so they are for a vertex two
edges from the root, but three edges from it they need not be.

* `Graph.exists_parents` : parents by their positions;
* `Graph.IsFirstParent` : the earliest declared parent among those that are one edge nearer to the root;
* `pathTo_eq_concat` : the predecessor of every vertex, and how it stands among the parents.
-/

namespace CoverSearch

variable {r : Record} {g : Graph} {edges : List (Nat × Nat)} {root u v n : Nat} {p q s t w us : List Nat}

/-! ## Order -/

theorem lex_of_append (h : List.Lex (· < ·) (p ++ s) (q ++ t)) (hlen : p.length = q.length) (hne : p ≠ q) :
    List.Lex (· < ·) p q := by
  induction p generalizing q with
  | nil => exact absurd (List.length_eq_zero_iff.1 hlen.symm).symm hne
  | cons a p ih =>
    rcases q with _ | ⟨b, q⟩
    · exact nomatch hlen
    · rcases List.cons_lex_cons_iff.1 h with hlt | ⟨rfl, htail⟩
      · exact .rel hlt
      · exact .cons (ih htail (Nat.succ.inj hlen) fun heq => hne (heq ▸ rfl))

theorem lt_of_lex_concat (h : List.Lex (· < ·) (s ++ [u]) (s ++ [v])) : u < v := by
  induction s with
  | nil =>
    rcases List.cons_lex_cons_iff.1 h with hlt | ⟨-, hnil⟩
    · exact hlt
    · exact nomatch hnil
  | cons a s ih =>
    rcases List.cons_lex_cons_iff.1 h with hlt | ⟨-, htail⟩
    · exact absurd hlt (Nat.lt_irrefl a)
    · exact ih htail

/-- All walks with as many edges up to one differ in their ends alone. -/
theorem IsWalk.eq_concat (h : IsWalk edges root u w) (hshort : w.length ≤ 2) :
    w = (if w.length = 2 then [root] else []) ++ [u] := by
  rcases w with _ | ⟨a, _ | ⟨b, _ | ⟨c, w⟩⟩⟩
  · exact nomatch h.head?_eq
  · obtain rfl := Option.some.inj h.getLast?_eq
    rfl
  · obtain rfl := Option.some.inj h.head?_eq
    obtain rfl := Option.some.inj h.getLast?_eq
    rfl
  · simp only [List.length_cons] at hshort
    omega

namespace Graph

/-! ## Parents -/

theorem mem_incoming : u ∈ incoming edges v ↔ (u, v) ∈ edges := by
  rw [incoming, List.mem_map]
  constructor
  · rintro ⟨⟨a, b⟩, h, rfl⟩
    obtain ⟨hmem, hend⟩ := List.mem_filter.1 h
    rwa [← (beq_iff_eq.1 hend : b = v)]
  · intro h
    exact ⟨(u, v), List.mem_filter.2 ⟨h, beq_self_eq_true v⟩, rfl⟩

theorem fst_lt_of_mem_links (h : ofRecord r = .ok g) (hedge : (u, v) ∈ r.links) : u < r.nodes.length := by
  obtain ⟨e, he, heq⟩ := List.mem_map.1 hedge
  obtain ⟨rfl, rfl⟩ := Prod.mk.inj heq
  exact ((ofRecord_eq_ok h).2.2.1 e he).1

/-- The positions of the parents of a vertex, in declaration order. -/
structure IsParents (edges : List (Nat × Nat)) (v : Nat) (us : List Nat) : Prop where
  ascending : us.Pairwise (· < ·)
  mem_iff : ∀ u, u ∈ us ↔ u ≠ v ∧ (u, v) ∈ edges

theorem exists_parents (h : ofRecord r = .ok g) (hv : v < r.nodes.length) :
    ∃ us, IsParents r.links v us ∧ g.parents (r.target v) = .ok (us.map r.target) := by
  have hsound := sound_of_ofRecord h
  have hsize : g.size = r.nodes.length := congrArg List.length (ofRecord_eq_ok h).2.2.2.2.2.1
  refine ⟨(List.range g.size).filter fun u => u != v && (incoming g.edges v).contains u,
    ⟨List.pairwise_lt_range.filter _, fun u => ?_⟩, ?_⟩
  · rw [List.mem_filter, List.mem_range, Bool.and_eq_true, bne_iff_ne, List.contains_iff_mem, mem_incoming,
      ← List.mem_eraseDups (l := r.links), ← edges_eq_links h]
    constructor
    · rintro ⟨-, hparent⟩
      exact hparent
    · rintro ⟨hne, hedge⟩
      exact ⟨(hsound.edge_lt u v hedge).1, hne, hedge⟩
  · rw [← vertex_eq_target h, parents, locate, hsound.position?_vertex (hsize ▸ hv)]
    rfl

/-- The earliest declared one of the parents that are one edge nearer to the root. -/
def IsFirstParent (g : Graph) (t s : Target) : Prop :=
  ∃ ps n, g.parents t = .ok ps ∧ g.distance t = .ok (n + 1) ∧
    ps.find? (fun p => (g.distance p).toOption == some n) = some s

theorem IsFirstParent.unique {t s s' : Target} (h : g.IsFirstParent t s) (h' : g.IsFirstParent t s') : s = s' := by
  obtain ⟨ps, n, hparents, hdistance, hfind⟩ := h
  obtain ⟨ps', n', hparents', hdistance', hfind'⟩ := h'
  obtain rfl := Except.ok.inj (hparents.symm.trans hparents')
  obtain rfl := Nat.succ.inj (Except.ok.inj (hdistance.symm.trans hdistance'))
  exact Option.some.inj (hfind.symm.trans hfind')

theorem isFirstParent_of_lt {t : Target} (hus : IsParents edges v us) (hparents : g.parents t = .ok (us.map r.target))
    (hdistance : g.distance t = .ok (n + 1)) (hu : u ∈ us) (hun : g.distance (r.target u) = .ok n)
    (hlt : ∀ u' ∈ us, u' ≠ u → g.distance (r.target u') = .ok n → u < u') : g.IsFirstParent t (r.target u) := by
  refine ⟨_, n, hparents, hdistance, ?_⟩
  obtain ⟨before, after, rfl⟩ := List.append_of_mem hu
  rw [List.find?_map, Option.map_eq_some_iff]
  refine ⟨u, List.find?_eq_some_iff_append.2 ⟨?_, before, after, rfl, fun a ha => ?_⟩, rfl⟩
  · rw [Function.comp_apply, hun]
    exact beq_self_eq_true (some n)
  · have hau : a < u := (List.pairwise_append.1 hus.ascending).2.2 a ha u List.mem_cons_self
    rw [Function.comp_apply, Bool.not_eq_true', ← Bool.not_eq_true, beq_iff_eq, toOption_eq_some]
    intro han
    exact absurd (hlt a (List.mem_append_left _ ha) hau.ne han) hau.not_gt

/-! ## Predecessors -/

/-- A vertex other than the root is found along an edge from one that has been found. -/
theorem exists_predecessor (h : ofRecord r = .ok g) {c : Climb} (hc : c ∈ reach r.nodes.length g.edges g.root)
    (hroot : c.vertex ≠ g.root) : ∃ e ∈ reach r.nodes.length g.edges g.root,
      c.path = e.path ++ [c.vertex] ∧ e.vertex ≠ c.vertex ∧ (e.vertex, c.vertex) ∈ r.links := by
  obtain ⟨unseen, hfound⟩ := discovers_ofRecord h
  rcases hfound.origin c (List.mem_append_left [] hc) with rfl | ⟨e, he, x, rfl⟩
  · exact absurd rfl hroot
  · refine ⟨e, he, e.path_extend x, fun heq => ?_, ?_⟩
    · -- one vertex is not found twice
      have hlen := congrArg (fun d => d.path.length) (hfound.eq_of_vertex he hc heq)
      simp at hlen
    · have hwalk := (isFirstShortest_path h hc).isWalk
      rw [Climb.path_extend] at hwalk
      obtain ⟨-, ⟨hnil, -⟩ | ⟨y, hinit, hedge⟩⟩ := hwalk.init
      · simp [Climb.path, Climb.toList] at hnil
      · have hlast := (isFirstShortest_path h he).isWalk.getLast?_eq
        obtain rfl := Option.some.inj (hlast.symm.trans hinit.getLast?_eq)
        exact hedge

/-- What is found for a vertex is its path, and the number of its edges the distance. -/
theorem pathTo_of_mem (h : ofRecord r = .ok g) {c : Climb} (hc : c ∈ reach r.nodes.length g.edges g.root) :
    g.pathTo (r.target c.vertex) = .ok (c.path.map r.target) ∧
      g.distance (r.target c.vertex) = .ok (c.path.length - 1) := by
  obtain ⟨unseen, hfound⟩ := discovers_ofRecord h
  obtain ⟨d, hd, heq, hpath⟩ := exists_climb h (hfound.vertex_lt hc)
  obtain rfl := hfound.eq_of_vertex hd hc heq
  refine ⟨hpath, ?_⟩
  rw [distance_eq hpath, List.length_map]

/-- The other parents that are as near to the root have later paths. -/
theorem exists_lex_of_parent (h : ofRecord r = .ok g) {c e : Climb} (hc : c ∈ reach r.nodes.length g.edges g.root)
    (he : e ∈ reach r.nodes.length g.edges g.root) (hpath : c.path = e.path ++ [c.vertex]) (hne : u ≠ e.vertex)
    (hedge : (u, c.vertex) ∈ r.links) (hdistance : g.distance (r.target u) = g.distance (r.target e.vertex)) :
    ∃ x, IsFirstShortest r.links g.root u x ∧ g.pathTo (r.target u) = .ok (x.map r.target) ∧
      x.length = e.path.length ∧ List.Lex (· < ·) e.path x := by
  obtain ⟨d, hd, rfl, -⟩ := exists_climb h (fst_lt_of_mem_links h hedge)
  obtain ⟨hpathd, hdistanced⟩ := pathTo_of_mem h hd
  have hfirst := isFirstShortest_path h hd
  have hlen : d.path.length = e.path.length := by
    have heq := Except.ok.inj (hdistanced.symm.trans (hdistance.trans (pathTo_of_mem h he).2))
    rw [Climb.length_path, Climb.length_path] at heq ⊢
    omega
  have hne' : d.path ≠ e.path := by
    intro heq
    have hlast := hfirst.isWalk.getLast?_eq
    rw [heq] at hlast
    exact hne (Option.some.inj (hlast.symm.trans (isFirstShortest_path h he).isWalk.getLast?_eq))
  refine ⟨d.path, hfirst, hpathd, hlen, ?_⟩
  -- one edge further it is a walk that competes with the path
  have hwalk := hfirst.isWalk.concat hedge
  have hfirstc := isFirstShortest_path h hc
  rw [hpath] at hfirstc
  have hlex := hfirstc.lex _ hwalk (by simp [hlen]) fun heq => hne' (List.append_cancel_right heq)
  exact lex_of_append hlex hlen.symm hne'.symm

end Graph

/-! ## Main statement -/

/-- The predecessor of a vertex of a graph on its cached path. It is a parent, one edge nearer to the root, and among
such parents the one with the lexicographically first path. Up to two edges from the root it is the one that is declared
first. -/
theorem pathTo_eq_concat (r : Record) (g : Graph) (h : Graph.ofRecord r = .ok g) (v : Nat) (hv : v < r.nodes.length)
    (hroot : r.nodes[v]? ≠ some rootBlock) : ∃ root us u w n, r.nodes[root]? = some rootBlock ∧
      Graph.IsParents r.links v us ∧ g.parents (r.target v) = .ok (us.map r.target) ∧ u ∈ us ∧
      IsFirstShortest r.links root u w ∧ g.pathTo (r.target u) = .ok (w.map r.target) ∧
      g.pathTo (r.target v) = .ok ((w ++ [v]).map r.target) ∧
      g.distance (r.target u) = .ok n ∧ g.distance (r.target v) = .ok (n + 1) ∧
      (∀ u' ∈ us, u' ≠ u → g.distance (r.target u') = .ok n → ∃ x, IsFirstShortest r.links root u' x ∧
        g.pathTo (r.target u') = .ok (x.map r.target) ∧ List.Lex (· < ·) w x) ∧
      (n ≤ 1 → g.IsFirstParent (r.target v) (r.target u)) := by
  have hrooted := Graph.getElem?_of_idxOf? (Graph.ofRecord_eq_ok h).2.1
  obtain ⟨us, hus, hparents⟩ := Graph.exists_parents h hv
  obtain ⟨c, hc, rfl, -⟩ := Graph.exists_climb h hv
  have hne : c.vertex ≠ g.root := fun heq => hroot (heq ▸ hrooted)
  obtain ⟨e, he, hpath, hvertex, hedge⟩ := Graph.exists_predecessor h hc hne
  obtain ⟨hpathc, hdistancec⟩ := Graph.pathTo_of_mem h hc
  obtain ⟨hpathe, hdistancee⟩ := Graph.pathTo_of_mem h he
  have hfirst := Graph.isFirstShortest_path h he
  have hmem : e.vertex ∈ us := (hus.mem_iff _).2 ⟨hvertex, hedge⟩
  have hlenc : c.path.length - 1 = e.path.length - 1 + 1 := by
    rw [hpath, List.length_append, Climb.length_path]
    rfl
  rw [hlenc] at hdistancec
  rw [hpath] at hpathc
  have hother : ∀ u' ∈ us, u' ≠ e.vertex → g.distance (r.target u') = .ok (e.path.length - 1) →
      ∃ x, IsFirstShortest r.links g.root u' x ∧ g.pathTo (r.target u') = .ok (x.map r.target) ∧
        x.length = e.path.length ∧ List.Lex (· < ·) e.path x := fun u' hu' hne' hdistance =>
    Graph.exists_lex_of_parent h hc he hpath hne' ((hus.mem_iff u').1 hu').2 (hdistance.trans hdistancee.symm)
  refine ⟨g.root, us, e.vertex, e.path, e.path.length - 1, hrooted, hus, hparents, hmem, hfirst, hpathe, hpathc,
    hdistancee, hdistancec, fun u' hu' hne' hdistance => ?_, fun hn => ?_⟩
  · obtain ⟨x, hx, hpathx, -, hlex⟩ := hother u' hu' hne' hdistance
    exact ⟨x, hx, hpathx, hlex⟩
  · refine Graph.isFirstParent_of_lt hus hparents hdistancec hmem hdistancee fun u' hu' hne' hdistance => ?_
    obtain ⟨x, hx, -, hlen, hlex⟩ := hother u' hu' hne' hdistance
    have hshort : e.path.length ≤ 2 := by omega
    rw [hfirst.isWalk.eq_concat hshort, hx.isWalk.eq_concat (hlen ▸ hshort), hlen] at hlex
    exact lt_of_lex_concat hlex

/-- Block 4 is found from block 1. It is its own parent too, but a loop leads nowhere. -/
theorem pathTo_eq_concat_crossedRecord : ∃ g us u, Graph.ofRecord crossedRecord = .ok g ∧
    4 < crossedRecord.nodes.length ∧ crossedRecord.nodes[4]? ≠ some rootBlock ∧
    Graph.IsParents crossedRecord.links 4 us ∧ u ∈ us ∧ crossedRecord.target u = ⟨"f", 1⟩ ∧
    g.IsFirstParent (crossedRecord.target 4) (crossedRecord.target u) := by
  have hrun : (do
      let g ← (Graph.ofRecord crossedRecord).toOption
      (g.pathTo (crossedRecord.target 4)).toOption) = some [.root "f", ⟨"f", 1⟩, ⟨"f", 4⟩] := by
    decide +kernel
  obtain ⟨g, hg, hrun⟩ := Option.bind_eq_some_iff.1 hrun
  rw [toOption_eq_some] at hg hrun
  obtain ⟨root, us, u, w, n, -, hus, -, hu, hfirst, hpathu, hpath, hdistance, -, -, hparent⟩ :=
    pathTo_eq_concat crossedRecord g hg 4 (by decide) (by decide)
  have hw : w.map crossedRecord.target ++ [crossedRecord.target 4] = [.root "f", ⟨"f", 1⟩] ++ [⟨"f", 4⟩] := by
    rw [← List.map_singleton, ← List.map_append]
    exact Except.ok.inj (hpath.symm.trans hrun)
  obtain ⟨hw, -⟩ := List.append_inj' hw rfl
  have hlast : (w.map crossedRecord.target).getLast? = some (crossedRecord.target u) := by
    rw [List.getLast?_map, hfirst.isWalk.getLast?_eq]
    rfl
  have hn := Graph.distance_eq hpathu
  rw [hw] at hlast hn
  obtain rfl : n = 1 := Except.ok.inj (hdistance.symm.trans hn)
  exact ⟨g, us, u, hg, by decide, by decide, hus, hu, (Option.some.inj hlast).symm, hparent (Nat.le_refl 1)⟩

/-- Blocks 3 and 4 are as near to the root, and the search finds block 4 first, as it is behind block 1. -/
theorem not_isFirstParent_crossedRecord : ∃ g, Graph.ofRecord crossedRecord = .ok g ∧
    g.pathTo ⟨"f", 5⟩ = .ok [.root "f", ⟨"f", 1⟩, ⟨"f", 4⟩, ⟨"f", 5⟩] ∧ g.IsFirstParent ⟨"f", 5⟩ ⟨"f", 3⟩ ∧
    ¬ g.IsFirstParent ⟨"f", 5⟩ ⟨"f", 4⟩ := by
  have hrun : (do
      let g ← (Graph.ofRecord crossedRecord).toOption
      let path ← (g.pathTo ⟨"f", 5⟩).toOption
      let n ← (g.distance ⟨"f", 5⟩).toOption
      let ps ← (g.parents ⟨"f", 5⟩).toOption
      return (path, n, ps.find? fun p => (g.distance p).toOption == some 2)) =
        some ([.root "f", ⟨"f", 1⟩, ⟨"f", 4⟩, ⟨"f", 5⟩], 3, some ⟨"f", 3⟩) := by
    decide +kernel
  obtain ⟨g, hg, hrun⟩ := Option.bind_eq_some_iff.1 hrun
  obtain ⟨path, hpath, hrun⟩ := Option.bind_eq_some_iff.1 hrun
  obtain ⟨n, hn, hrun⟩ := Option.bind_eq_some_iff.1 hrun
  obtain ⟨ps, hps, hrun⟩ := Option.bind_eq_some_iff.1 hrun
  obtain ⟨rfl, hrest⟩ := Prod.mk.inj (Option.some.inj hrun)
  obtain ⟨rfl, hfind⟩ := Prod.mk.inj hrest
  rw [toOption_eq_some] at hg hpath hn hps
  have hfirst : g.IsFirstParent ⟨"f", 5⟩ ⟨"f", 3⟩ := ⟨ps, 2, hps, hn, hfind⟩
  exact ⟨g, hg, hpath, hfirst, fun h => absurd (hfirst.unique h) (by decide)⟩

end CoverSearch
