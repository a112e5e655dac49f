import CoverSearch.Directory
import CoverSearch.Proofs.Success
import CoverSearch.Proofs.Text.Utf8
import Mathlib.Data.List.Sort

/-!
# The files below an entry

The files at or below an entry are visited once each, in the order of the names that lead to them. These names are
compared one after the other by their bytes, which is to go depth first through directories that are sorted by name.

* `Entry.HasFile` : a file some names below an entry, through directories alone;
* `Entry.Distinct` : directories without two entries of a name; `Entry.distinct_ofChanges` : so is whatever is made;
* `Entry.Visits` : all files, in the order of their names;
* `Entry.exists_visits` : the files of an entry come in that order.
-/

namespace CoverSearch

/-- The path some names below a path. -/
def Path.below (p : Path) (names : List String) : Path := names.foldl Path.child p

namespace Entry

variable {entry inner top : Entry} {entries : List (String × Entry)} {names place : List String} {name : String}
  {content : ByteArray} {path : Path}

/-- A file some names below an entry. -/
inductive HasFile : Entry → List String → ByteArray → Prop
  | here {content : ByteArray} : HasFile (.file content) [] content
  | inside {entries : List (String × Entry)} {name : String} {inner : Entry} {names : List String}
      {content : ByteArray} : (name, inner) ∈ entries → HasFile inner names content →
      HasFile (.directory entries) (name :: names) content

/-- No directory has two entries of one name. -/
inductive Distinct : Entry → Prop
  | file {content : ByteArray} : Distinct (.file content)
  | link {target : Path} : Distinct (.link target)
  | directory {entries : List (String × Entry)} : (entries.map (·.1)).Nodup → (∀ e ∈ entries, Distinct e.2) →
      Distinct (.directory entries)

/-- All files below an entry, by the names that lead to them, in the order of the bytes of these. -/
structure Visits (entry : Entry) (places : List (List String × ByteArray)) : Prop where
  mem_iff : ∀ names content, (names, content) ∈ places ↔ entry.HasFile names content
  ascending : places.Pairwise fun x y => x.1.map utf8 < y.1.map utf8

/-! ## Trees that are made -/

namespace Distinct

theorem of_mem (h : (Entry.directory entries).Distinct) {e : String × Entry} (he : e ∈ entries) : e.2.Distinct := by
  cases h with
  | directory _ hentries => exact hentries e he

theorem nodup (h : (Entry.directory entries).Distinct) : (entries.map (·.1)).Nodup := by
  cases h with
  | directory hnodup _ => exact hnodup

theorem of_lookup (h : (Entry.directory entries).Distinct) (hlookup : entries.lookup name = some inner) :
    inner.Distinct := by
  obtain ⟨before, after, rfl, -⟩ := List.lookup_eq_some_iff.1 hlookup
  exact h.of_mem (e := (name, inner)) (List.mem_append_right _ List.mem_cons_self)

theorem emptyDirectory : emptyDirectory.Distinct := .directory List.nodup_nil fun _ h => absurd h List.not_mem_nil

/-- An entry put in place of the one of its name, or behind all others. -/
theorem put (htop : top.Distinct) (hentry : entry.Distinct) (place : List String) : (top.put entry place).Distinct := by
  induction place generalizing top with
  | nil => exact hentry
  | cons name place ih =>
    cases top with
    | file content => exact htop
    | link target => exact htop
    | directory entries =>
      rw [Entry.put]
      rcases hlookup : entries.lookup name with _ | inner
      · refine .directory ?_ fun e he => ?_
        · rw [List.map_append, List.map_singleton, List.nodup_append]
          refine ⟨htop.nodup, List.nodup_singleton _, fun n hn n' hn' heq => ?_⟩
          obtain ⟨e, he, rfl⟩ := List.mem_map.1 hn
          have hne := List.lookup_eq_none_iff.1 hlookup e he
          exact bne_iff_ne.1 hne (heq.trans (List.mem_singleton.1 hn')).symm
        · rcases List.mem_append.1 he with he | he
          · exact htop.of_mem he
          · rw [List.mem_singleton.1 he]
            exact ih .emptyDirectory
      · refine .directory ?_ fun e he => ?_
        · have hnames : (entries.map fun e => if e.1 = name then (name, Entry.put inner entry place) else e).map (·.1) =
              entries.map (·.1) := by
            rw [List.map_map]
            refine List.map_congr_left fun e _ => ?_
            show (if e.1 = name then (name, Entry.put inner entry place) else e).1 = e.1
            split <;> rename_i heq
            · exact heq.symm
            · rfl
          rw [hnames]
          exact htop.nodup
        · obtain ⟨e', he', rfl⟩ := List.mem_map.1 he
          split
          · exact ih (htop.of_lookup hlookup)
          · exact htop.of_mem he'

theorem add (htop : top.Distinct) (hentry : entry.Distinct) (path : Path) : (top.add entry path).Distinct := by
  rw [Entry.add]
  split
  · split
    · exact htop.put hentry _
    · exact htop
  · exact htop

theorem addDirectories (htop : top.Distinct) (path : Path) : (top.addDirectories path).Distinct :=
  List.foldlRecOn (List.range path.length) _ htop fun _ h _ _ => h.add .emptyDirectory _

theorem addFile (htop : top.Distinct) (path : Path) (content : ByteArray) : (top.addFile path content).Distinct := by
  rw [Entry.addFile]
  split
  · split
    · exact htop
    · exact htop.put .file _
  · exact htop

theorem apply (htop : top.Distinct) (change : Change) : (top.apply change).Distinct := by
  cases change with
  | file path content => exact (htop.addDirectories _).addFile path content
  | link path target => exact (htop.addDirectories _).add .link path
  | directory path => exact htop.addDirectories path

theorem at? (htop : top.Distinct) (h : top.at? place = some entry) : entry.Distinct := by
  induction place generalizing top with
  | nil => exact Option.some.inj h ▸ htop
  | cons name place ih =>
    cases top with
    | file content => exact nomatch h
    | link target => exact nomatch h
    | directory entries =>
      obtain ⟨inner, hinner, h⟩ := Option.bind_eq_some_iff.1 h
      exact ih (htop.of_lookup hinner) h

theorem find {last : Bool} (htop : top.Distinct) (h : top.find last path = .ok entry) : entry.Distinct := by
  obtain ⟨place, -, h⟩ := bind_eq_ok.1 h
  rcases hat : top.at? place with _ | found <;> rw [hat] at h
  · exact nomatch h
  · obtain rfl := Except.ok.inj h
    exact htop.at? hat

end Distinct

theorem distinct_ofChanges (changes : List Change) : (ofChanges changes).Distinct :=
  List.foldlRecOn changes _ .emptyDirectory fun _ h change _ => h.apply change

/-! ## The order of the files -/

theorem filesIn_eq_map (path : Path) (entries : List (String × Entry)) :
    filesIn path entries = entries.map fun e => (e.1, files (path.child e.1) e.2) := by
  induction entries with
  | nil => rfl
  | cons e entries ih =>
    rw [filesIn, ih]
    rfl

/-- The entries of a directory in the order of their names. -/
def byName (entries : List (String × Entry)) : List (String × Entry) :=
  entries.mergeSort fun a b => decide (a.1 ≤ b.1)

theorem byName_of_sorted (h : (entries.map (·.1)).Pairwise (· ≤ ·)) : byName entries = entries :=
  List.mergeSort_of_pairwise ((List.pairwise_map.1 h).imp decide_eq_true)

theorem mem_byName {e : String × Entry} : e ∈ byName entries ↔ e ∈ entries := List.mem_mergeSort

/-- A directory is visited entry by entry, in the order of the names. -/
theorem files_directory (path : Path) (entries : List (String × Entry)) :
    files path (.directory entries) = (byName entries).flatMap fun e => files (path.child e.1) e.2 := by
  have hmap : (byName entries).map (fun e => (e.1, files (path.child e.1) e.2)) =
      (entries.map fun e => (e.1, files (path.child e.1) e.2)).mergeSort fun a b => decide (a.1 ≤ b.1) :=
    List.map_mergeSort fun _ _ _ _ => rfl
  rw [files, filesIn_eq_map, ← hmap, List.flatMap_map]

theorem ascending_byName (hnodup : (entries.map (·.1)).Nodup) :
    (byName entries).Pairwise fun a b => utf8 a.1 < utf8 b.1 := by
  have htrans : ∀ a b c : String × Entry, decide (a.1 ≤ b.1) = true → decide (b.1 ≤ c.1) = true →
      decide (a.1 ≤ c.1) = true :=
    fun _ _ _ hab hbc => decide_eq_true (String.le_trans (of_decide_eq_true hab) (of_decide_eq_true hbc))
  have htotal : ∀ a b : String × Entry, (decide (a.1 ≤ b.1) || decide (b.1 ≤ a.1)) = true := by
    intro a b
    simpa using String.le_total a.1 b.1
  have hle : (byName entries).Pairwise fun a b => decide (a.1 ≤ b.1) = true :=
    List.pairwise_mergeSort htrans htotal entries
  have hnames : ((byName entries).map (·.1)).Perm (entries.map (·.1)) := (List.mergeSort_perm entries _).map (·.1)
  have hne : (byName entries).Pairwise fun a b => a.1 ≠ b.1 := List.pairwise_map.1 (hnames.nodup_iff.2 hnodup)
  exact (hle.and hne).imp fun ⟨hle, hne⟩ => utf8_lt_utf8.2 (lt_of_le_of_ne (of_decide_eq_true hle) hne)

/-- The files of a directory, from those of its entries. -/
theorem Visits.directory {places : String × Entry → List (List String × ByteArray)}
    (hnodup : (entries.map (·.1)).Nodup) (hplaces : ∀ e ∈ entries, e.2.Visits (places e)) :
    (directory entries).Visits
      ((byName entries).flatMap fun e => (places e).map fun x => (e.1 :: x.1, x.2)) where
  mem_iff names content := by
    simp only [List.mem_flatMap, List.mem_map, mem_byName, Prod.mk.injEq]
    constructor
    · rintro ⟨e, he, x, hx, rfl, rfl⟩
      exact .inside he (((hplaces e he).mem_iff _ _).1 hx)
    · rintro (_ | ⟨hinner, hfile⟩)
      exact ⟨_, hinner, _, ((hplaces _ hinner).mem_iff _ _).2 hfile, rfl, rfl⟩
  ascending := by
    rw [List.pairwise_flatMap]
    constructor
    · intro e he
      refine List.pairwise_map.2 ((hplaces e (mem_byName.1 he)).ascending.imp fun hlt => ?_)
      exact List.cons_lt_cons_iff.2 (Or.inr ⟨rfl, hlt⟩)
    · refine (ascending_byName hnodup).imp fun {e e'} hlt x hx y hy => ?_
      obtain ⟨x, -, rfl⟩ := List.mem_map.1 hx
      obtain ⟨y, -, rfl⟩ := List.mem_map.1 hy
      exact List.cons_lt_cons_iff.2 (Or.inl hlt)

/-- Every file below an entry is visited once, in the order of the names. -/
theorem exists_visits (h : entry.Distinct) : ∃ places, entry.Visits places ∧
    ∀ path, files path entry = places.map fun x => ⟨path.below x.1, x.2⟩ := by
  induction h with
  | @file content =>
    refine ⟨[([], content)], ⟨fun names content' => ?_, List.pairwise_singleton _ _⟩, fun path => by rw [files]; rfl⟩
    rw [List.mem_singleton, Prod.mk.injEq]
    constructor
    · rintro ⟨rfl, rfl⟩
      exact .here
    · rintro ⟨⟩
      exact ⟨rfl, rfl⟩
  | @link target =>
    refine ⟨[], ⟨fun names content => ?_, List.Pairwise.nil⟩, fun path => by rw [files]; rfl⟩
    refine iff_of_false List.not_mem_nil ?_
    rintro ⟨⟩
  | @directory entries hnodup _ ih =>
    choose! places hplaces using ih
    refine ⟨_, Visits.directory hnodup fun e he => (hplaces e he).1, fun path => ?_⟩
    rw [files_directory, List.map_flatMap]
    refine List.flatMap_congr fun e he => ?_
    rw [(hplaces e (mem_byName.1 he)).2, List.map_map]
    rfl

end Entry

end CoverSearch
