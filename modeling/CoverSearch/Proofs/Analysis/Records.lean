import CoverSearch.Proofs.Analysis.Objectives
import CoverSearch.Proofs.Text.Utf8
import Mathlib.Data.List.Perm.Basic

/-!
# The analysis of some records

The graphs of an analysis are put in one after the other, each at its place among the others. What comes out is the one
arrangement of them in ascending order of their units, so the order in which they come makes no difference; only which
reason against them is the first one depends on it.

* `Analysis.gather` : the graphs read from some items, whatever these are;
* `Analysis.gather_eq_ok`, `Analysis.gather_eq_error` : the analysis of some items, and the first reason against one;
* `Analysis.gather_perm` : the order of the items makes no difference;
* `Analysis.FirstRefused`, `Analysis.Arranges` : the same for records, and what an analysis makes of these;
* `Analysis.ofRecords_arranges` : the result for all lists of records.
-/

namespace CoverSearch.Analysis

variable {α : Type} {read : α → Except InputError Graph} {items items' : List α} {a a' : Analysis} {g : Graph}
  {graphs : List Graph} {records : List Record} {e : InputError}

/-! ## One more graph -/

theorem isSome_find?_iff : (a.find? g.unit).isSome = true ↔ g.unit ∈ a.graphs.map Graph.unit := by
  rw [find?, List.find?_isSome, List.mem_map]
  simp only [beq_iff_eq]

theorem insert_eq_ok : a.insert g = .ok a' ↔ g.unit ∉ a.graphs.map Graph.unit ∧ a' = ⟨insertSorted g a.graphs⟩ := by
  rw [insert, ← isSome_find?_iff]
  split <;> rename_i h
  · simp [h]
  · simp [h, eq_comm]

theorem insert_eq_error : a.insert g = .error e ↔ g.unit ∈ a.graphs.map Graph.unit ∧ e = .duplicateUnit g.unit := by
  rw [insert, ← isSome_find?_iff]
  split <;> rename_i h
  · simp [h, eq_comm]
  · simp [h]

/-- Graphs in ascending order of their units, each unit once. -/
def Ascending (graphs : List Graph) : Prop := graphs.Pairwise fun g h => g.unit < h.unit

theorem Ascending.insertSorted (h : Ascending graphs) (hg : g.unit ∉ graphs.map Graph.unit) :
    Ascending (insertSorted g graphs) := by
  induction graphs with
  | nil => exact List.pairwise_singleton _ _
  | cons k rest ih =>
    obtain ⟨hk, hrest⟩ := List.pairwise_cons.1 h
    rw [List.map_cons, List.mem_cons, not_or] at hg
    rw [Analysis.insertSorted]
    split <;> rename_i hlt
    · refine List.pairwise_cons.2 ⟨List.forall_mem_cons.2 ⟨hlt, fun k' hk' => hlt.trans (hk k' hk')⟩, h⟩
    · refine List.pairwise_cons.2 ⟨fun k' hk' => ?_, ih hrest hg.2⟩
      rcases List.mem_cons.1 ((insertSorted_perm g rest).mem_iff.1 hk') with rfl | hk'
      · exact lt_of_le_of_ne (not_lt.1 hlt) (Ne.symm hg.1)
      · exact hk k' hk'

theorem Ascending.nodup (h : Ascending graphs) : (graphs.map Graph.unit).Nodup :=
  (List.pairwise_map.2 h).imp fun hlt => hlt.ne

/-- There is one ascending arrangement. -/
theorem Ascending.eq_of_perm {graphs' : List Graph} (h : Ascending graphs) (h' : Ascending graphs')
    (hperm : graphs.Perm graphs') : graphs = graphs' :=
  hperm.eq_of_pairwise (fun _ _ _ _ hlt hgt => absurd hlt (not_lt_of_gt hgt)) h h'

/-! ## All graphs -/

/-- The analysis of the graphs that are read from some items. -/
def gather (read : α → Except InputError Graph) (items : List α) : Except InputError Analysis :=
  items.foldlM (fun a x => do a.insert (← read x)) {}

theorem gather_concat (x : α) :
    gather read (items ++ [x]) = gather read items >>= fun a => (do a.insert (← read x)) := by
  unfold gather
  rw [List.foldlM_append]
  refine bind_congr fun a => ?_
  rw [List.foldlM_cons]
  exact bind_pure _

theorem mapM_concat_eq_ok {x : α} : (items ++ [x]).mapM read = .ok graphs ↔
    ∃ before g, items.mapM read = .ok before ∧ read x = .ok g ∧ graphs = before ++ [g] := by
  rw [List.mapM_append, bind_eq_ok]
  constructor
  · rintro ⟨before, hbefore, h⟩
    obtain ⟨last, hlast, h⟩ := bind_eq_ok.1 h
    obtain ⟨g, hg, rfl⟩ : ∃ g, read x = .ok g ∧ [g] = last := by
      rw [mapM_eq_ok, List.forall₂_cons_left_iff] at hlast
      obtain ⟨g, rest, hg, hrest, rfl⟩ := hlast
      obtain rfl := List.forall₂_nil_left_iff.1 hrest
      exact ⟨g, hg, rfl⟩
    exact ⟨before, g, hbefore, hg, (pure_eq_ok.1 h).symm⟩
  · rintro ⟨before, g, hbefore, hg, rfl⟩
    exact ⟨before, hbefore, bind_eq_ok.2 ⟨[g], mapM_eq_ok.2 (.cons hg .nil), rfl⟩⟩

theorem of_gather (h : gather read items = .ok a) : ∃ graphs, items.mapM read = .ok graphs ∧
    (graphs.map Graph.unit).Nodup ∧ a.graphs.Perm graphs ∧ Ascending a.graphs := by
  induction items using List.reverseRecOn generalizing a with
  | nil =>
    obtain rfl := Except.ok.inj h
    exact ⟨[], rfl, List.nodup_nil, List.Perm.refl [], List.Pairwise.nil⟩
  | append_singleton items x ih =>
    rw [gather_concat] at h
    obtain ⟨a₁, ha₁, h⟩ := bind_eq_ok.1 h
    obtain ⟨g, hg, h⟩ := bind_eq_ok.1 h
    obtain ⟨graphs, hgraphs, hnodup, hperm, hascending⟩ := ih ha₁
    obtain ⟨hfresh, rfl⟩ := insert_eq_ok.1 h
    have hgather : (insertSorted g a₁.graphs).Perm (graphs ++ [g]) :=
      (insertSorted_perm g _).trans ((hperm.cons g).trans (List.perm_append_singleton g graphs).symm)
    have hascending' := hascending.insertSorted hfresh
    refine ⟨graphs ++ [g], mapM_concat_eq_ok.2 ⟨graphs, g, hgraphs, hg, rfl⟩, ?_, hgather, hascending'⟩
    exact (hgather.map Graph.unit).nodup_iff.1 hascending'.nodup

theorem exists_gather (h : items.mapM read = .ok graphs) (hnodup : (graphs.map Graph.unit).Nodup) :
    ∃ a, gather read items = .ok a := by
  induction items using List.reverseRecOn generalizing graphs with
  | nil => exact ⟨{}, rfl⟩
  | append_singleton items x ih =>
    obtain ⟨before, g, hbefore, hg, rfl⟩ := mapM_concat_eq_ok.1 h
    rw [List.map_append, List.nodup_append] at hnodup
    obtain ⟨a₁, ha₁⟩ := ih hbefore hnodup.1
    obtain ⟨before', hbefore', -, hperm, -⟩ := of_gather ha₁
    obtain rfl := Except.ok.inj (hbefore.symm.trans hbefore')
    have hfresh : g.unit ∉ a₁.graphs.map Graph.unit := fun hmem =>
      hnodup.2.2 g.unit ((hperm.map Graph.unit).mem_iff.1 hmem) g.unit (List.mem_singleton_self _) rfl
    rw [gather_concat]
    exact ⟨_, bind_eq_ok.2 ⟨a₁, ha₁, bind_eq_ok.2 ⟨g, hg, insert_eq_ok.2 ⟨hfresh, rfl⟩⟩⟩⟩

/-- The analysis of some items has all their graphs, in ascending order. -/
theorem gather_eq_ok : gather read items = .ok a ↔
    ∃ graphs, items.mapM read = .ok graphs ∧ a.graphs.Perm graphs ∧ Ascending a.graphs := by
  constructor
  · intro h
    obtain ⟨graphs, hgraphs, -, hperm, hascending⟩ := of_gather h
    exact ⟨graphs, hgraphs, hperm, hascending⟩
  · rintro ⟨graphs, hgraphs, hperm, hascending⟩
    obtain ⟨a', ha'⟩ := exists_gather hgraphs ((hperm.map Graph.unit).nodup_iff.1 hascending.nodup)
    obtain ⟨graphs', hgraphs', -, hperm', hascending'⟩ := of_gather ha'
    obtain rfl := Except.ok.inj (hgraphs.symm.trans hgraphs')
    have hsame : a'.graphs = a.graphs := hascending'.eq_of_perm hascending (hperm'.trans hperm.symm)
    rw [ha', show a' = a from congrArg Analysis.mk hsame]

/-- The first item without a graph, or with one of a unit that has been there, decides. -/
theorem gather_eq_error : gather read items = .error e ↔ ∃ before x after graphs, items = before ++ x :: after ∧
    before.mapM read = .ok graphs ∧ (graphs.map Graph.unit).Nodup ∧
      (read x = .error e ∨ ∃ g, read x = .ok g ∧ g.unit ∈ graphs.map Graph.unit ∧ e = .duplicateUnit g.unit) := by
  rw [gather, foldlM_eq_error]
  constructor
  · rintro ⟨before, x, after, rfl, a, ha, h⟩
    obtain ⟨graphs, hgraphs, hnodup, hperm, -⟩ := of_gather ha
    refine ⟨before, x, after, graphs, rfl, hgraphs, hnodup, ?_⟩
    refine (bind_eq_error.1 h).imp_right fun ⟨g, hg, h⟩ => ?_
    obtain ⟨hmem, rfl⟩ := insert_eq_error.1 h
    exact ⟨g, hg, (hperm.map Graph.unit).mem_iff.1 hmem, rfl⟩
  · rintro ⟨before, x, after, graphs, rfl, hgraphs, hnodup, h⟩
    obtain ⟨a, ha⟩ := exists_gather hgraphs hnodup
    obtain ⟨graphs', hgraphs', -, hperm, -⟩ := of_gather ha
    obtain rfl := Except.ok.inj (hgraphs.symm.trans hgraphs')
    refine ⟨before, x, after, rfl, a, ha, bind_eq_error.2 (h.imp_right ?_)⟩
    rintro ⟨g, hg, hmem, rfl⟩
    exact ⟨g, hg, insert_eq_error.2 ⟨(hperm.map Graph.unit).mem_iff.2 hmem, rfl⟩⟩

/-- The items may come in any order. -/
theorem gather_perm (h : gather read items = .ok a) (hperm : items'.Perm items) : gather read items' = .ok a := by
  obtain ⟨graphs, hgraphs, hgather, hascending⟩ := gather_eq_ok.1 h
  obtain ⟨graphs', hgraphs', hperm'⟩ := List.perm_comp_forall₂ hperm (mapM_eq_ok.1 hgraphs)
  exact gather_eq_ok.2 ⟨graphs', mapM_eq_ok.2 hgraphs', hgather.trans hperm'.symm, hascending⟩

end CoverSearch.Analysis

namespace CoverSearch

variable {r : Record} {g : Graph} {graphs : List Graph} {records sorted : List Record} {a : Analysis} {e : InputError}

/-! ## Records -/

/-- All listed nodes but the root, in declaration order. -/
def Record.targets (r : Record) : List Target := (r.nodes.filter (· != rootBlock)).map fun b => ⟨r.unit, b⟩

theorem Record.mem_targets {t : Target} :
    t ∈ r.targets ↔ t.unit = r.unit ∧ t.block ∈ r.nodes ∧ t.block ≠ rootBlock := by
  rw [targets, List.mem_map]
  constructor
  · rintro ⟨b, hb, rfl⟩
    obtain ⟨hb, hne⟩ := List.mem_filter.1 hb
    exact ⟨rfl, hb, bne_iff_ne.1 hne⟩
  · rintro ⟨hunit, hb, hne⟩
    exact ⟨t.block, List.mem_filter.2 ⟨hb, bne_iff_ne.2 hne⟩, by rw [← hunit]⟩

theorem Graph.unit_of_ofRecord (h : Graph.ofRecord r = .ok g) : g.unit = r.unit := (Graph.ofRecord_eq_ok h).2.2.2.2.1

theorem Graph.targets_of_ofRecord (h : Graph.ofRecord r = .ok g) : g.targets = r.targets := by
  obtain ⟨-, -, -, -, hunit, hblocks, -⟩ := Graph.ofRecord_eq_ok h
  rw [targets, vertices, hunit, hblocks, Record.targets, List.filter_map]
  rfl

theorem map_unit_of_forall₂ (h : List.Forall₂ (fun r g => Graph.ofRecord r = .ok g) records graphs) :
    graphs.map Graph.unit = records.map (·.unit) := by
  induction h with
  | nil => rfl
  | cons hg _ ih => rw [List.map_cons, List.map_cons, ih, Graph.unit_of_ofRecord hg]

theorem flatMap_targets_of_forall₂ (h : List.Forall₂ (fun r g => Graph.ofRecord r = .ok g) records graphs) :
    graphs.flatMap Graph.targets = records.flatMap Record.targets := by
  induction h with
  | nil => rfl
  | cons hg _ ih => rw [List.flatMap_cons, List.flatMap_cons, ih, Graph.targets_of_ofRecord hg]

namespace Analysis

theorem targetCount_eq (a : Analysis) : a.targetCount = a.objectives.length := by
  rw [← List.length_map (·.target), map_target_objectives, targetCount]
  induction a.graphs with
  | nil => rfl
  | cons g graphs ih => rw [List.map_cons, total_cons, ih, List.flatMap_cons, List.length_append]

/-- All records before this one have graphs, of units of their own; this one has none for the reason `e`, or repeats a
unit of theirs. -/
def FirstRefused (records : List Record) (e : InputError) : Prop :=
  ∃ before r after, records = before ++ r :: after ∧ (∀ r' ∈ before, ∃ g, Graph.ofRecord r' = .ok g) ∧
    (before.map (·.unit)).Nodup ∧ (Graph.ofRecord r = .error e ∨
      (∃ g, Graph.ofRecord r = .ok g) ∧ r.unit ∈ before.map (·.unit) ∧ e = .duplicateUnit r.unit)

/-- What an analysis makes of records: their graphs in the order of the bytes of their units, an objective for each
target of these in the order of declaration, and each target once. -/
structure Arranges (a : Analysis) (records : List Record) : Prop where
  exists_sorted : ∃ sorted, sorted.Perm records ∧ (sorted.Pairwise fun r r' => utf8 r.unit < utf8 r'.unit) ∧
    List.Forall₂ (fun r g => Graph.ofRecord r = .ok g) sorted a.graphs ∧
    a.objectives.map (·.target) = sorted.flatMap Record.targets
  graph_mem : ∀ o ∈ a.objectives, o.graph ∈ a.graphs ∧ o.graph.unit = o.target.unit
  nodup : (a.objectives.map (·.target)).Nodup
  mem_iff : ∀ t, t ∈ a.objectives.map (·.target) ↔
    ∃ r ∈ records, t.unit = r.unit ∧ t.block ∈ r.nodes ∧ t.block ≠ rootBlock
  targetCount_eq : a.targetCount = a.objectives.length

theorem arranges_of_ofRecords (h : ofRecords records = .ok a) : a.Arranges records := by
  obtain ⟨graphs, hgraphs, hperm, hascending⟩ := gather_eq_ok.1 h
  have hflip : List.Forall₂ (fun g r => Graph.ofRecord r = .ok g) graphs records := (mapM_eq_ok.1 hgraphs).flip
  obtain ⟨sorted, hread, hsorted⟩ := List.perm_comp_forall₂ hperm hflip
  have hread : List.Forall₂ (fun r g => Graph.ofRecord r = .ok g) sorted a.graphs := hread.flip
  have htargets : a.objectives.map (·.target) = sorted.flatMap Record.targets :=
    (map_target_objectives a).trans (flatMap_targets_of_forall₂ hread)
  refine ⟨⟨sorted, hsorted, ?_, hread, htargets⟩, fun o ho => ⟨(mem_objectives.1 ho).1, o.unit_target.symm⟩,
    (sound_of_ofRecords h).nodup_objectives, fun t => ?_, a.targetCount_eq⟩
  · have hunits := List.pairwise_map.2 hascending
    rw [map_unit_of_forall₂ hread] at hunits
    exact (List.pairwise_map.1 hunits).imp utf8_lt_utf8.2
  · rw [htargets, List.mem_flatMap]
    exact exists_congr fun r => and_congr hsorted.mem_iff Record.mem_targets

theorem exists_ofRecords_iff : (∃ a, ofRecords records = .ok a) ↔
    (∀ r ∈ records, ∃ g, Graph.ofRecord r = .ok g) ∧ (records.map (·.unit)).Nodup := by
  constructor
  · rintro ⟨a, ha⟩
    obtain ⟨graphs, hgraphs, hnodup, -⟩ := of_gather ha
    have hread := mapM_eq_ok.1 hgraphs
    rw [map_unit_of_forall₂ hread] at hnodup
    exact ⟨exists_mapM_eq_ok.1 ⟨graphs, hgraphs⟩, hnodup⟩
  · rintro ⟨hrecords, hnodup⟩
    obtain ⟨graphs, hgraphs⟩ := exists_mapM_eq_ok.2 hrecords
    refine exists_gather hgraphs ?_
    rwa [map_unit_of_forall₂ (mapM_eq_ok.1 hgraphs)]

theorem ofRecords_eq_error_iff : ofRecords records = .error e ↔ FirstRefused records e := by
  constructor
  · intro h
    obtain ⟨before, r, after, graphs, rfl, hgraphs, hnodup, h⟩ := gather_eq_error.1 h
    have hread := mapM_eq_ok.1 hgraphs
    rw [map_unit_of_forall₂ hread] at hnodup h
    refine ⟨before, r, after, rfl, exists_mapM_eq_ok.1 ⟨graphs, hgraphs⟩, hnodup, h.imp_right ?_⟩
    rintro ⟨g, hg, hmem, he⟩
    rw [Graph.unit_of_ofRecord hg] at hmem he
    exact ⟨⟨g, hg⟩, hmem, he⟩
  · rintro ⟨before, r, after, rfl, hrecords, hnodup, h⟩
    obtain ⟨graphs, hgraphs⟩ := exists_mapM_eq_ok.2 hrecords
    have hunits := map_unit_of_forall₂ (mapM_eq_ok.1 hgraphs)
    refine gather_eq_error.2 ⟨before, r, after, graphs, rfl, hgraphs, hunits ▸ hnodup, h.imp_right ?_⟩
    rintro ⟨⟨g, hg⟩, hmem, he⟩
    rw [← Graph.unit_of_ofRecord hg] at hmem he
    exact ⟨g, hg, hunits ▸ hmem, he⟩

/-! ## Main statement -/

/-- Records have an analysis just if each has a graph and no unit is repeated; otherwise the reason is that against the
first record that has no graph or repeats a unit. An analysis arranges its records, and that of the same records in any
order is the same one, with the same graphs, objectives and independent targets. -/
theorem ofRecords_arranges (records : List Record) :
    ((∃ a, ofRecords records = .ok a) ↔
      (∀ r ∈ records, ∃ g, Graph.ofRecord r = .ok g) ∧ (records.map (·.unit)).Nodup) ∧
    (∀ e, ofRecords records = .error e ↔ FirstRefused records e) ∧
    ∀ a, ofRecords records = .ok a → a.Arranges records ∧
      ∀ records' : List Record, records'.Perm records → ofRecords records' = .ok a :=
  ⟨exists_ofRecords_iff, fun _ => ofRecords_eq_error_iff, fun _ ha => ⟨arranges_of_ofRecords ha,
    fun _ hperm => gather_perm ha hperm⟩⟩

/-- The unit of two bytes comes behind that of one, and the objectives of the second record first. -/
example : (ofRecords [{ unit := "é", nodes := [7, rootBlock], edges := [⟨1, 0⟩] },
    { unit := "z", nodes := [rootBlock, 3, 2], edges := [⟨0, 1⟩, ⟨0, 2⟩] }]).toOption.map
      (fun a => a.objectives.map (·.target)) = some [⟨"z", 3⟩, ⟨"z", 2⟩, ⟨"é", 7⟩] := by
  decide +kernel

end Analysis

end CoverSearch
