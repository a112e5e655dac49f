import CoverSearch.Proofs.Analysis.Records
import CoverSearch.Proofs.Directory.Visits
import CoverSearch.Proofs.Record.RoundTrip

/-!
# The analysis of a directory

Every log file is read, and its graph is built and put to the others, before the next one is looked at. All the same, if
nothing fails, this is the analysis of the records in the log files, taken in any order, so it depends on nothing but
the contents of these files. What fails first depends on the order of the visit.

* `Entry.walked` : the entry that a root leads to;
* `File.Reads` : the record in the bytes of a log file;
* `Entry.load_eq_ok` : files are taken together as their records are; `Entry.FirstFailed` : the first that cannot be;
* `Entry.load_ofRecords` : the result for every tree.
-/

namespace CoverSearch

variable {f : File} {r : Record} {files : List File} {graphs : List Graph} {records : List Record} {a : Analysis}
  {e : InputError}

/-! ## Log files -/

/-- A text in UTF-8 that is a log entry, in which a record is embedded. -/
def File.Reads (content : ByteArray) (r : Record) : Prop := ∃ text log, String.fromUTF8? content = some text ∧
  LogRecord.parse text = .ok log ∧ log.toRecord = .ok r

/-- Where a log file is makes no difference to its record. -/
theorem File.record_eq_ok : f.record = .ok r ↔ Reads f.content r := by
  unfold record Reads
  rcases String.fromUTF8? f.content with _ | text
  · simp
  · simp only [bind_eq_ok, Option.some.injEq]
    constructor
    · rintro ⟨log, hlog, hr⟩
      exact ⟨text, log, rfl, hlog, hr⟩
    · rintro ⟨_, log, rfl, hlog, hr⟩
      exact ⟨log, hlog, hr⟩

theorem fromUTF8?_toUTF8 (s : String) : String.fromUTF8? s.toUTF8 = some s := dif_pos s.isValidUTF8

/-- A file that the log entry of a record has been written to. -/
theorem File.reads_toLog (r : Record) (weight : Nat → Option UInt64) : Reads (r.toLog weight).toJson.render.toUTF8 r :=
  ⟨(r.toLog weight).toJson.render, r.toLog weight, fromUTF8?_toUTF8 _, LogRecord.parse_toJson _,
    LogRecord.toRecord_toLog r weight⟩

/-- The graph of the record in a log file. -/
def File.graph (f : File) : Except InputError Graph := do Graph.ofRecord (← f.record)

theorem File.graph_eq_error : f.graph = .error e ↔
    f.record = .error e ∨ ∃ r, f.record = .ok r ∧ Graph.ofRecord r = .error e := bind_eq_error

theorem mapM_graph_eq_ok : files.mapM File.graph = .ok graphs ↔
    ∃ records, files.mapM File.record = .ok records ∧ records.mapM Graph.ofRecord = .ok graphs := by
  induction files generalizing graphs with
  | nil =>
    constructor
    · intro h
      exact ⟨[], rfl, h⟩
    · rintro ⟨records, hrecords, h⟩
      obtain rfl := pure_eq_ok.1 hrecords
      exact h
  | cons f files ih =>
    simp only [mapM_eq_ok, List.forall₂_cons_left_iff] at ih ⊢
    constructor
    · rintro ⟨g, graphs, hg, hgraphs, rfl⟩
      obtain ⟨r, hr, hg⟩ := bind_eq_ok.1 hg
      obtain ⟨records, hrecords, hgraphs⟩ := ih.1 hgraphs
      exact ⟨r :: records, ⟨r, records, hr, hrecords, rfl⟩, .cons hg hgraphs⟩
    · rintro ⟨_, ⟨r, records, hr, hrecords, rfl⟩, h⟩
      obtain ⟨g, graphs, hg, hgraphs, rfl⟩ := List.forall₂_cons_left_iff.1 h
      exact ⟨g, graphs, bind_eq_ok.2 ⟨r, hr, hg⟩, ih.2 ⟨records, hrecords, hgraphs⟩, rfl⟩

/-! ## Files taken together -/

theorem foldlM_insertFile (files : List File) :
    files.foldlM Analysis.insertFile {} = Analysis.gather File.graph files := by
  unfold Analysis.gather
  congr 1
  funext a f
  rw [Analysis.insertFile, File.graph, bind_assoc]
  rfl

theorem gather_graph_eq_ok : Analysis.gather File.graph files = .ok a ↔
    ∃ records, files.mapM File.record = .ok records ∧ Analysis.ofRecords records = .ok a := by
  rw [Analysis.gather_eq_ok]
  constructor
  · rintro ⟨graphs, hgraphs, hrest⟩
    obtain ⟨records, hrecords, hgraphs⟩ := mapM_graph_eq_ok.1 hgraphs
    exact ⟨records, hrecords, Analysis.gather_eq_ok.2 ⟨graphs, hgraphs, hrest⟩⟩
  · rintro ⟨records, hrecords, h⟩
    obtain ⟨graphs, hgraphs, hrest⟩ := Analysis.gather_eq_ok.1 h
    exact ⟨graphs, mapM_graph_eq_ok.2 ⟨records, hrecords, hgraphs⟩, hrest⟩

/-- All log files before this one have been read and taken together; this one cannot be read for the reason `e`, or its
graph cannot be built for that reason, or it repeats a unit. -/
def FirstFailed (files : List File) (e : InputError) : Prop :=
  ∃ before f after records, files = before ++ f :: after ∧ before.mapM File.record = .ok records ∧
    (∃ a, Analysis.ofRecords records = .ok a) ∧ (f.record = .error e ∨ ∃ r, f.record = .ok r ∧
      (Graph.ofRecord r = .error e ∨
        (∃ g, Graph.ofRecord r = .ok g) ∧ r.unit ∈ records.map (·.unit) ∧ e = .duplicateUnit r.unit))

theorem gather_graph_eq_error : Analysis.gather File.graph files = .error e ↔ FirstFailed files e := by
  rw [Analysis.gather_eq_error]
  constructor
  · rintro ⟨before, f, after, graphs, rfl, hgraphs, hnodup, h⟩
    obtain ⟨records, hrecords, hgraphs⟩ := mapM_graph_eq_ok.1 hgraphs
    have hunits := map_unit_of_forall₂ (mapM_eq_ok.1 hgraphs)
    refine ⟨before, f, after, records, rfl, hrecords, Analysis.exists_gather hgraphs hnodup, ?_⟩
    rcases h with h | ⟨g, hg, hmem, rfl⟩
    · rcases File.graph_eq_error.1 h with h | ⟨r, hr, h⟩
      · exact Or.inl h
      · exact Or.inr ⟨r, hr, Or.inl h⟩
    · obtain ⟨r, hr, hg⟩ := bind_eq_ok.1 hg
      rw [Graph.unit_of_ofRecord hg] at hmem ⊢
      exact Or.inr ⟨r, hr, Or.inr ⟨⟨g, hg⟩, hunits ▸ hmem, rfl⟩⟩
  · rintro ⟨before, f, after, records, rfl, hrecords, ⟨a, ha⟩, h⟩
    obtain ⟨graphs, hgraphs, hnodup, -⟩ := Analysis.of_gather ha
    have hunits := map_unit_of_forall₂ (mapM_eq_ok.1 hgraphs)
    refine ⟨before, f, after, graphs, rfl, mapM_graph_eq_ok.2 ⟨records, hrecords, hgraphs⟩, hnodup, ?_⟩
    rcases h with h | ⟨r, hr, h | ⟨⟨g, hg⟩, hmem, rfl⟩⟩
    · exact Or.inl (File.graph_eq_error.2 (Or.inl h))
    · exact Or.inl (File.graph_eq_error.2 (Or.inr ⟨r, hr, h⟩))
    · refine Or.inr ⟨g, bind_eq_ok.2 ⟨r, hr, hg⟩, ?_⟩
      rw [Graph.unit_of_ofRecord hg]
      exact ⟨hunits ▸ hmem, rfl⟩

namespace Entry

variable {top top' entry entry' : Entry} {root root' : Path}

/-! ## Roots -/

/-- The entry that a root leads to: a link that leads to a directory is followed. -/
def walked (top : Entry) (root : Path) : Except ReadFailure Entry := do
  match ← top.find false root with
  | .link target =>
    match ← top.find true root with
    | .directory entries => return .directory entries
    | _ => return .link target
  | entry => return entry

theorem filesAt_eq (top : Entry) (root : Path) : top.filesAt root = do return Entry.files root (← top.walked root) := by
  unfold filesAt walked
  rcases top.find false root with cause | entry
  · rfl
  cases entry with
  | file content => rfl
  | directory entries => rfl
  | link target =>
    rcases top.find true root with cause | entry
    · rfl
    · cases entry with
      | file content =>
        show _ = (.ok (Entry.files root (.link target)) : Except ReadFailure (List File))
        rw [Entry.files]
        rfl
      | directory entries => rfl
      | link target' =>
        show _ = (.ok (Entry.files root (.link target)) : Except ReadFailure (List File))
        rw [Entry.files]
        rfl

theorem Distinct.walked (htop : top.Distinct) (h : top.walked root = .ok entry) : entry.Distinct := by
  obtain ⟨found, hfound, h⟩ := bind_eq_ok.1 h
  cases found with
  | file content => exact pure_eq_ok.1 h ▸ .file
  | directory entries => exact pure_eq_ok.1 h ▸ htop.find hfound
  | link target =>
    obtain ⟨followed, hfollowed, h⟩ := bind_eq_ok.1 h
    cases followed with
    | file content => exact pure_eq_ok.1 h ▸ .link
    | directory entries => exact pure_eq_ok.1 h ▸ htop.find hfollowed
    | link target => exact pure_eq_ok.1 h ▸ .link

/-- The log files at or below an entry, in the order of the visit. -/
def logs (root : Path) (entry : Entry) : List File := (Entry.files root entry).filter File.isLog

theorem load_eq (h : top.walked root = .ok entry) : top.load root = Analysis.gather File.graph (logs root entry) := by
  have hfiles : top.filesAt root = .ok (Entry.files root entry) := by
    rw [filesAt_eq, h]
    rfl
  rw [load, hfiles]
  exact foldlM_insertFile _

/-- A file some names below a root goes by the last of them; a root that is a file, by the last part of its path. -/
def IsLogName (root : Path) (names : List String) : Prop :=
  ∃ name, (root ++ names).getLast? = some name ∧ "mir".toList <+: name.toList

theorem getLast?_below (root : Path) (names : List String) :
    (root.below names).getLast? = (root ++ names).getLast? := by
  induction names using List.reverseRecOn with
  | nil => rw [List.append_nil]; rfl
  | append_singleton names name _ =>
    rw [Path.below, List.foldl_append, ← List.append_assoc, List.getLast?_concat]
    exact List.getLast?_concat

theorem isLog_iff (root : Path) (names : List String) (content : ByteArray) :
    File.isLog ⟨root.below names, content⟩ = true ↔ IsLogName root names := by
  unfold File.isLog IsLogName
  rw [getLast?_below]
  rcases (root ++ names).getLast? with _ | name
  · simp
  · simp [List.isPrefixOf_iff_prefix]

/-- Only the contents of the log files count, in any order. -/
theorem gather_graph_of_perm {files' : List File} (hperm : (files'.map File.content).Perm (files.map File.content))
    (h : Analysis.gather File.graph files = .ok a) : Analysis.gather File.graph files' = .ok a := by
  obtain ⟨records, hrecords, ha⟩ := gather_graph_eq_ok.1 h
  have hreads : List.Forall₂ File.Reads (files.map File.content) records :=
    List.forall₂_map_left_iff.2 ((mapM_eq_ok.1 hrecords).imp fun _ _ => File.record_eq_ok.1)
  obtain ⟨records', hreads', hrecords'⟩ := List.perm_comp_forall₂ hperm hreads
  refine gather_graph_eq_ok.2 ⟨records', mapM_eq_ok.2 ?_, Analysis.gather_perm ha hrecords'⟩
  exact (List.forall₂_map_left_iff.1 hreads').imp fun _ _ => File.record_eq_ok.2

/-! ## Main statement -/

/-- A tree in which no directory has two entries of a name, and an entry in it to which a root leads. The log files at
or below the entry, those whose names begin with `mir`, are visited once each, in the order of their names. They have an
analysis just if a record can be read from the content of each and these records have one; it is that of the records in
any order. Otherwise the reason is that against the first log file that cannot be read, or whose graph cannot be built,
or that repeats a unit. So nothing but the contents of the log files decides whether there is an analysis, and which. -/
theorem load_ofRecords (top : Entry) (htop : top.Distinct) (root : Path) (entry : Entry)
    (hroot : top.walked root = .ok entry) :
    (∃ places, entry.Visits places ∧
      logs root entry = (places.map fun x => ⟨root.below x.1, x.2⟩).filter File.isLog) ∧
    (∀ names content, File.isLog ⟨root.below names, content⟩ = true ↔ IsLogName root names) ∧
    ((∃ a, top.load root = .ok a) ↔ (∃ records, List.Forall₂ (fun f r => File.Reads f.content r) (logs root entry) records ∧
      ∃ a, Analysis.ofRecords records = .ok a)) ∧
    (∀ files records, files.Perm (logs root entry) → List.Forall₂ (fun f r => File.Reads f.content r) files records →
      ∀ a, top.load root = .ok a ↔ Analysis.ofRecords records = .ok a) ∧
    (∀ e, top.load root = .error e ↔ FirstFailed (logs root entry) e) ∧
    ∀ (top' : Entry) root' entry', top'.walked root' = .ok entry' →
      ((logs root' entry').map File.content).Perm ((logs root entry).map File.content) →
      ∀ a, top'.load root' = .ok a ↔ top.load root = .ok a := by
  have hload := load_eq hroot
  refine ⟨?_, isLog_iff root, ?_, fun files records hperm hreads a => ?_, fun e => ?_,
    fun top' root' entry' hroot' hperm a => ?_⟩
  · obtain ⟨places, hvisits, hfiles⟩ := exists_visits (htop.walked hroot)
    exact ⟨places, hvisits, by rw [logs, hfiles]⟩
  · rw [hload]
    simp only [gather_graph_eq_ok, mapM_eq_ok, File.record_eq_ok]
    exact ⟨fun ⟨a, records, hreads, ha⟩ => ⟨records, hreads, a, ha⟩, fun ⟨records, hreads, a, ha⟩ =>
      ⟨a, records, hreads, ha⟩⟩
  · have hrecords : files.mapM File.record = .ok records := mapM_eq_ok.2 (hreads.imp fun _ _ => File.record_eq_ok.2)
    have hfiles : Analysis.gather File.graph files = .ok a ↔ Analysis.ofRecords records = .ok a := by
      rw [gather_graph_eq_ok]
      constructor
      · rintro ⟨records', hrecords', ha⟩
        exact Except.ok.inj (hrecords'.symm.trans hrecords) ▸ ha
      · exact fun ha => ⟨records, hrecords, ha⟩
    rw [hload, ← hfiles]
    exact ⟨fun ha => Analysis.gather_perm ha hperm, fun ha => Analysis.gather_perm ha hperm.symm⟩
  · rw [hload]
    exact gather_graph_eq_error
  · rw [hload, load_eq hroot']
    exact ⟨gather_graph_of_perm hperm.symm, gather_graph_of_perm hperm⟩

/-- A directory with a log file and another file in it, and beside it a link with the name of a log file. -/
def logged (content : ByteArray) : Entry :=
  .directory [("mir.json", .link ["mirror"]),
    ("mirror", .directory [("mir.log", .file content), ("notes", .file .empty)])]

theorem distinct_logged (content : ByteArray) : (logged content).Distinct := by
  refine .directory (show ["mir.json", "mirror"].Nodup by decide) fun e he => ?_
  rcases List.mem_pair.1 he with rfl | rfl
  · exact .link
  · refine .directory (show ["mir.log", "notes"].Nodup by decide) fun e he => ?_
    rcases List.mem_pair.1 he with rfl | rfl <;> exact .file

theorem files_logged (content : ByteArray) :
    Entry.files [] (logged content) = [⟨["mirror", "mir.log"], content⟩, ⟨["mirror", "notes"], .empty⟩] := by
  rw [logged, files_directory, byName_of_sorted, List.flatMap_cons, List.flatMap_singleton, files, files_directory,
    byName_of_sorted, List.flatMap_cons, List.flatMap_singleton, files, files]
  · simp [Path.child]
  · show ["mir.log", "notes"].Pairwise (· ≤ ·)
    decide
  · show ["mir.json", "mirror"].Pairwise (· ≤ ·)
    decide

theorem logs_logged (content : ByteArray) : logs [] (logged content) = [⟨["mirror", "mir.log"], content⟩] := by
  have hlog : File.isLog ⟨["mirror", "mir.log"], content⟩ = true :=
    show "mir".toList.isPrefixOf "mir.log".toList = true by decide
  have hnotes : ¬ File.isLog ⟨["mirror", "notes"], .empty⟩ = true :=
    show ¬ "mir".toList.isPrefixOf "notes".toList = true by decide
  rw [logs, files_logged, List.filter_cons_of_pos hlog, List.filter_cons_of_neg hnotes, List.filter_nil]

theorem walked_logged (content : ByteArray) : (logged content).walked [] = .ok (logged content) := by
  have hplace : (logged content).place false [] = .ok [] := by
    rw [place, placeFrom]
    rfl
  rw [walked, find, hplace]
  rfl

/-- A unit of one block. -/
def oneBlock : Record := { unit := "f", nodes := [rootBlock, 0], edges := [⟨0, 1⟩] }

/-- The link and the file that is no log are left out. -/
theorem load_ofRecords_logged : ∃ content, (logged content).Distinct ∧
    (logged content).walked [] = .ok (logged content) ∧ File.Reads content oneBlock ∧
    ∃ a, Analysis.ofRecords [oneBlock] = .ok a ∧ (logged content).load [] = .ok a := by
  have hreads := File.reads_toLog oneBlock fun _ => none
  generalize (oneBlock.toLog fun _ => none).toJson.render.toUTF8 = content at hreads
  have hlogs : List.Forall₂ (fun f r => File.Reads f.content r) (logs [] (logged content)) [oneBlock] := by
    rw [logs_logged]
    exact .cons hreads .nil
  have haccepted : (Analysis.ofRecords [oneBlock]).toOption.isSome = true := by decide +kernel
  obtain ⟨a, ha⟩ := Option.isSome_iff_exists.1 haccepted
  have ha := toOption_eq_some.1 ha
  obtain ⟨-, -, -, hrecords, -⟩ :=
    load_ofRecords (logged content) (distinct_logged content) [] (logged content) (walked_logged content)
  exact ⟨content, distinct_logged content, walked_logged content, hreads, a, ha,
    (hrecords _ _ (List.Perm.refl _) hlogs a).2 ha⟩

end Entry

end CoverSearch
