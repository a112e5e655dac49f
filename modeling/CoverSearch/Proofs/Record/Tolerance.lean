import CoverSearch.Proofs.Record.Edits
import CoverSearch.Proofs.Record.RoundTrip

/-!
# What readers of records overlook

Each reader of records asks each field for itself: for its text, its numbers or its edges. So the order of the fields
makes no difference, nor do fields that the reader does not know, whatever they hold, nor the weights of edges; and one
fault is enough against a whole text.

* `Record.follows`, `Shape.follows`, `LogRecord.follows` : the fields that the readers ask for;
* `Tolerates` : which texts a reader takes to be equal, and which ones it refuses;
* `Record.readers_tolerate` : so do the readers of all kinds of records.
-/

namespace CoverSearch

open Json

variable {α β : Type}

/-! ## Fields -/

namespace Json

variable {read : Json → Option β} {edges edges' : List Json} {x x' : Json}

theorem items?_congr (h : read x = read x') (edges edges' : List Json) :
    items? read (.array (edges ++ x :: edges')) = items? read (.array (edges ++ x' :: edges')) := by
  simp only [items?, List.mapM_append, List.mapM_cons, h]

theorem items?_eq_none (hmem : x ∈ edges) (h : read x = none) : items? read (.array edges) = none := by
  rw [Option.eq_none_iff_forall_ne_some]
  intro l hl
  obtain ⟨b, hb⟩ := exists_mapM_eq_some.1 ⟨l, hl⟩ x hmem
  exact nomatch h.symm.trans hb

namespace FieldRule

/-- A field that has to be there. -/
def ofRequired (accepted : List String) (read : Json → Option β) (part : α → β) : FieldRule α :=
  ⟨accepted, fun o r => Json.required read o = some (part r)⟩

/-- A field that may be left out. -/
def ofOptional (accepted : List String) (read : Json → Option β) (default : β) (part : α → β) : FieldRule α :=
  ⟨accepted, fun o r => Json.optional read default o = some (part r)⟩

variable {accepted : List String} {part : α → β}

theorem not_allows_none {r : α} : ¬ (ofRequired accepted read part).allows none r := fun h => nomatch h

theorem proper_ofRequired (hnull : read .null = none) (hedges : "edges" ∉ accepted) :
    (ofRequired accepted read part).Proper where
  null _ h := nomatch hnull.symm.trans h
  reweigh hmem := absurd hmem hedges
  broken hmem := absurd hmem hedges

theorem proper_ofOptional {default : β} (hnull : read .null = none) (hedges : "edges" ∉ accepted) :
    (ofOptional accepted read default part).Proper where
  null _ h := nomatch hnull.symm.trans h
  reweigh hmem := absurd hmem hedges
  broken hmem := absurd hmem hedges

theorem proper_edges {part : α → List Edge} : (ofOptional ["edges"] (items? Edge.ofJson?) [] part).Proper where
  null _ h := nomatch h
  reweigh _ edges edges' x x' hx r := by
    simp only [ofOptional, Json.optional, items?_congr hx.ofJson?_eq.symm]
  broken _ edges x hmem hx r h := nomatch (items?_eq_none hmem hx).symm.trans h

end FieldRule

end Json

namespace Record

def rules : List (FieldRule Record) :=
  [.ofRequired ["code_unit_id", "global_id"] text? (·.unit), .ofRequired ["nodes"] (items? word?) (·.nodes),
    .ofOptional ["edges"] (items? Edge.ofJson?) [] (·.edges), .ofOptional ["branches"] word? 0 (·.branches),
    .ofOptional ["assertions"] word? 0 (·.assertions)]

theorem follows : Follows ofJson? rules := by
  intro fields r
  rw [ofJson?, Option.bind_eq_bind, bind_fields?_object_eq_some]
  simp only [fieldNames, exists_forall₂_cons, exists_forall₂_nil, Option.bind_eq_bind, Option.bind_eq_some_iff]
  simp only [rules, List.forall_mem_cons, FieldRule.ofRequired, FieldRule.ofOptional]
  constructor
  · rintro ⟨hkeys, unit, hunit, nodes, hnodes, edges, hedges, branches, hbranches, assertions, hassertions,
      _, hu, _, hn, _, he, _, hb, _, ha, hr⟩
    obtain rfl := Option.some.inj hr
    exact ⟨hkeys, ⟨unit, hunit, hu⟩, ⟨nodes, hnodes, hn⟩, ⟨edges, hedges, he⟩, ⟨branches, hbranches, hb⟩,
      ⟨assertions, hassertions, ha⟩, List.forall_mem_nil _⟩
  · rintro ⟨hkeys, ⟨unit, hunit, hu⟩, ⟨nodes, hnodes, hn⟩, ⟨edges, hedges, he⟩, ⟨branches, hbranches, hb⟩,
      ⟨assertions, hassertions, ha⟩, -⟩
    exact ⟨hkeys, unit, hunit, nodes, hnodes, edges, hedges, branches, hbranches, assertions, hassertions,
      _, hu, _, hn, _, he, _, hb, _, ha, rfl⟩

theorem proper_rules : ∀ rule ∈ rules, rule.Proper := by
  unfold rules
  simp only [List.forall_mem_cons]
  exact ⟨FieldRule.proper_ofRequired rfl (by decide), FieldRule.proper_ofRequired rfl (by decide),
    FieldRule.proper_edges, FieldRule.proper_ofOptional rfl (by decide), FieldRule.proper_ofOptional rfl (by decide),
    List.forall_mem_nil _⟩

end Record

namespace Shape

def rules : List (FieldRule Shape) :=
  [.ofRequired ["nodes"] (items? word?) (·.nodes), .ofOptional ["edges"] (items? Edge.ofJson?) [] (·.edges)]

theorem follows : Follows Shape.ofJson? rules := by
  intro fields s
  rw [Shape.ofJson?, Option.bind_eq_bind, bind_fields?_object_eq_some]
  simp only [fieldNames, exists_forall₂_cons, exists_forall₂_nil, Option.bind_eq_bind, Option.bind_eq_some_iff]
  simp only [rules, List.forall_mem_cons, FieldRule.ofRequired, FieldRule.ofOptional]
  constructor
  · rintro ⟨hkeys, nodes, hnodes, edges, hedges, _, hn, _, he, hs⟩
    obtain rfl := Option.some.inj hs
    exact ⟨hkeys, ⟨nodes, hnodes, hn⟩, ⟨edges, hedges, he⟩, List.forall_mem_nil _⟩
  · rintro ⟨hkeys, ⟨nodes, hnodes, hn⟩, ⟨edges, hedges, he⟩, -⟩
    exact ⟨hkeys, nodes, hnodes, edges, hedges, _, hn, _, he, rfl⟩

theorem proper_rules : ∀ rule ∈ rules, rule.Proper := by
  unfold rules
  simp only [List.forall_mem_cons]
  exact ⟨FieldRule.proper_ofRequired rfl (by decide), FieldRule.proper_edges, List.forall_mem_nil _⟩

end Shape

namespace LogRecord

def rules : List (FieldRule LogRecord) :=
  [.ofRequired ["global_id"] text? (·.unit), .ofRequired ["cdg"] text? (·.graph),
    .ofOptional ["branches"] word? 0 (·.branches), .ofOptional ["assertions"] word? 0 (·.assertions)]

theorem follows : Follows ofJson? rules := by
  intro fields r
  rw [ofJson?, Option.bind_eq_bind, bind_fields?_object_eq_some]
  simp only [fieldNames, exists_forall₂_cons, exists_forall₂_nil, Option.bind_eq_bind, Option.bind_eq_some_iff]
  simp only [rules, List.forall_mem_cons, FieldRule.ofRequired, FieldRule.ofOptional]
  constructor
  · rintro ⟨hkeys, unit, hunit, graph, hgraph, branches, hbranches, assertions, hassertions,
      _, hu, _, hg, _, hb, _, ha, hr⟩
    obtain rfl := Option.some.inj hr
    exact ⟨hkeys, ⟨unit, hunit, hu⟩, ⟨graph, hgraph, hg⟩, ⟨branches, hbranches, hb⟩,
      ⟨assertions, hassertions, ha⟩, List.forall_mem_nil _⟩
  · rintro ⟨hkeys, ⟨unit, hunit, hu⟩, ⟨graph, hgraph, hg⟩, ⟨branches, hbranches, hb⟩,
      ⟨assertions, hassertions, ha⟩, -⟩
    exact ⟨hkeys, unit, hunit, graph, hgraph, branches, hbranches, assertions, hassertions,
      _, hu, _, hg, _, hb, _, ha, rfl⟩

theorem proper_rules : ∀ rule ∈ rules, rule.Proper := by
  unfold rules
  simp only [List.forall_mem_cons]
  exact ⟨FieldRule.proper_ofRequired rfl (by decide), FieldRule.proper_ofRequired rfl (by decide),
    FieldRule.proper_ofOptional rfl (by decide), FieldRule.proper_ofOptional rfl (by decide),
    List.forall_mem_nil _⟩

end LogRecord

/-! ## Texts -/

/-- A reader of texts that takes all texts of objects to be equal that edits of their fields lead from one to the other.
What is written as an object is found in all of them. A text of an object with a fault is malformed. -/
structure Tolerates (parse : String → Except InputError α) (context : String) (names required : List (List String))
    (written : β → Json) (meant : β → α) : Prop where
  edited : ∀ fields fields' text text', Relation.EqvGen (FieldEdit names) fields fields' →
    (Json.object fields).Spelled text → (Json.object fields').Spelled text' → parse text' = parse text
  accepted : ∀ b fields fields' text, written b = .object fields → Relation.EqvGen (FieldEdit names) fields fields' →
    (Json.object fields').Spelled text → parse text = .ok (meant b)
  faulty : ∀ fields text, FieldFault names required fields → (Json.object fields).Spelled text →
    parse text = .error (.malformed context)

theorem Json.Follows.tolerates {read : Json → Option β} {rules : List (FieldRule β)} (hread : Follows read rules)
    (hproper : ∀ rule ∈ rules, rule.Proper) (hdistinct : Distinct (rules.map FieldRule.accepted))
    {required : List (List String)}
    (hrequired : ∀ accepted ∈ required, ∃ rule ∈ rules, rule.accepted = accepted ∧ ∀ r, ¬ rule.allows none r)
    {parse : String → Except InputError α} {context : String} {meant : β → α}
    (hparse : ∀ text, parse text =
      (Json.parse? text >>= read).elim (.error (.malformed context)) fun b => .ok (meant b))
    {written : β → Json} (hwritten : ∀ b, read (written b) = some b) :
    Tolerates parse context (rules.map FieldRule.accepted) required written meant := by
  have hspelled : ∀ {fields text}, (Json.object fields).Spelled text →
      parse text = (read (.object fields)).elim (.error (.malformed context)) fun b => .ok (meant b) := by
    intro fields text h
    rw [hparse, parse?_of_spelled h]
    rfl
  refine ⟨fun fields fields' text text' hedits htext htext' => ?_, fun b fields fields' text hb hedits htext => ?_,
    fun fields text hfault htext => ?_⟩
  · rw [hspelled htext, hspelled htext', hread.eq_of_edits hproper hdistinct hedits]
  · rw [hspelled htext, ← hread.eq_of_edits hproper hdistinct hedits, ← hb, hwritten]
    rfl
  · rw [hspelled htext, hread.eq_none_of_fault hproper hrequired hfault fun n hn => htext.writable_number hn]
    rfl

theorem Record.tolerates : Tolerates Record.parse "cdg input" Record.fieldNames
    [["code_unit_id", "global_id"], ["nodes"]] (fun r : Record => r.toJson "code_unit_id" fun _ => none) id := by
  refine Record.follows.tolerates Record.proper_rules (by decide) ?_ (fun text => ?_) fun r =>
    r.ofJson?_toJson (by decide) _
  · exact List.forall_mem_cons.2 ⟨⟨_, .head _, rfl, fun _ => FieldRule.not_allows_none⟩,
      List.forall_mem_cons.2 ⟨⟨_, .tail _ (.head _), rfl, fun _ => FieldRule.not_allows_none⟩, List.forall_mem_nil _⟩⟩
  · rw [Record.parse]
    cases Json.parse? text >>= ofJson? <;> rfl

/-- A graph, whatever is made of it. -/
theorem Shape.tolerates {parse : String → Except InputError α} {context : String} {meant : Shape → α}
    (hparse : ∀ text, parse text =
      (Json.parse? text >>= Shape.ofJson?).elim (.error (.malformed context)) fun s => .ok (meant s)) :
    Tolerates parse context Shape.fieldNames [["nodes"]] (fun s : Shape => s.toJson fun _ => none) meant := by
  refine Shape.follows.tolerates Shape.proper_rules (by decide) ?_ hparse fun s => s.ofJson?_toJson _
  exact List.forall_mem_cons.2 ⟨⟨_, .head _, rfl, fun _ => FieldRule.not_allows_none⟩, List.forall_mem_nil _⟩

theorem LogRecord.tolerates : Tolerates LogRecord.parse "mir record" LogRecord.fieldNames [["global_id"], ["cdg"]]
    LogRecord.toJson id := by
  refine LogRecord.follows.tolerates LogRecord.proper_rules (by decide) ?_ (fun text => ?_) LogRecord.ofJson?_toJson
  · exact List.forall_mem_cons.2 ⟨⟨_, .head _, rfl, fun _ => FieldRule.not_allows_none⟩,
      List.forall_mem_cons.2 ⟨⟨_, .tail _ (.head _), rfl, fun _ => FieldRule.not_allows_none⟩, List.forall_mem_nil _⟩⟩
  · rw [LogRecord.parse]
    cases Json.parse? text >>= LogRecord.ofJson? <;> rfl

/-- The texts of records of all three kinds, and the graphs inside log rules. Whatever edits of the fields lead from one
object to another, their texts are read alike, and those that come from a written record are read as it. A fault makes a
text malformed, in the name of what is read. -/
theorem Record.readers_tolerate :
    Tolerates Record.parse "cdg input" Record.fieldNames [["code_unit_id", "global_id"], ["nodes"]]
        (fun r : Record => r.toJson "code_unit_id" fun _ => none) id ∧
      (∀ unit, Tolerates (Record.parseShape unit) unit Shape.fieldNames [["nodes"]]
        (fun s : Shape => s.toJson fun _ => none) fun s => { s with unit }) ∧
      Tolerates LogRecord.parse "mir record" LogRecord.fieldNames [["global_id"], ["cdg"]] LogRecord.toJson id ∧
      ∀ entry : LogRecord, Tolerates (fun graph => { entry with graph }.toRecord) entry.unit Shape.fieldNames
        [["nodes"]] (fun s : Shape => s.toJson fun _ => none)
        fun s => { s with unit := entry.unit, branches := entry.branches, assertions := entry.assertions } := by
  refine ⟨Record.tolerates, fun unit => Shape.tolerates fun text => ?_, LogRecord.tolerates, fun entry =>
    Shape.tolerates fun text => ?_⟩
  · rw [Record.parseShape]
    cases Json.parse? text >>= Shape.ofJson? <;> rfl
  · rw [LogRecord.toRecord, Record.parseShape]
    cases Json.parse? text >>= Shape.ofJson? <;> rfl

/-- The unit under its other name and last, a weight, blanks, escapes, and an unknown field in front that names a known
one inside. -/
example : (Record.parse ("\x7b \"x\": [\x7b\"nodes\":null\x7d, \"]\x7d\\ud800\"],\"edges\":[[0,1,[2.5]]]," ++
    "\"n\\u006fdes\":[18446744073709551615,7],\n\"global_id\":\"f\"\x7d")).toOption =
    some { unit := "f", nodes := [rootBlock, 7], edges := [⟨0, 1⟩] } := by decide +kernel

end CoverSearch
