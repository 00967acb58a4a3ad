import Chickadee.Lib.Layers
import Chickadee.Impl.Log
import Chickadee.Lemmas.FileName
import Chickadee.Lemmas.SSTable

/-!
This module contains the `SSTable` directory as a stack of layers, and that `get` is the lookup in
it below the memtable.
-/

namespace Chickadee

open Faulty Faulty.Io Layers

variable {σ : Type}

theorem sortNewestFirst_eq {names : List String} (h : names.Pairwise (· < ·)) :
    sortNewestFirst names = names.reverse := by
  unfold sortNewestFirst
  apply List.Perm.eq_of_pairwise
  . intro a b _ _ hab hba
    exact le_antisymm hba hab
  . apply List.pairwise_insertionSort
  . rw [List.pairwise_reverse]
    exact h.imp le_of_lt
  . exact (List.perm_insertionSort _ _).trans (List.reverse_perm _).symm

-- every file is named by a reading of the clock that has been made
def Named (d : Disk) : Prop :=
  ∀ name ∈ d.sstables.keys, ∃ i < d.ticks, name = MemTable.fileName (d.clock i)

-- the readings made so far go up and have at most 20 digits
def ClockUp (d : Disk) : Prop :=
  ∀ i < d.ticks, d.clock i < 10 ^ 20 ∧ ∀ j < i, d.clock j < d.clock i

def Disk.tick (d : Disk) : Disk :=
  { d with ticks := d.ticks + 1 }

@[simp] theorem Disk.tick_wal (d : Disk) : d.tick.wal = d.wal := rfl
@[simp] theorem Disk.tick_sstables (d : Disk) : d.tick.sstables = d.sstables := rfl
@[simp] theorem Disk.tick_clock (d : Disk) : d.tick.clock = d.clock := rfl
@[simp] theorem Disk.tick_ticks (d : Disk) : d.tick.ticks = d.ticks + 1 := rfl

def nextName (d : Disk) : String :=
  MemTable.fileName (d.clock d.ticks)

theorem Named.lt_nextName {d : Disk} (h : Named d) (hclock : ClockUp d.tick) :
    ∀ name ∈ d.sstables.keys, name < nextName d := by
  intro name hname
  rcases h name hname with ⟨i, hi, rfl⟩
  have hlast := hclock d.ticks (Nat.lt_succ_self _)
  apply MemTable.fileName_lt (hlast.2 i hi) hlast.1

theorem Named.tick {d : Disk} (h : Named d) : Named d.tick := by
  intro name hname
  rcases h name hname with ⟨i, hi, heq⟩
  exact ⟨i, Nat.lt_succ_of_lt hi, heq⟩

theorem Named.write {d : Disk} (h : Named d) (contents : Contents) :
    Named (d.tick.write (.sstable (nextName d)) contents) := by
  intro name hname
  cases (SortedMap.mem_keys_insert _ _ _ _).mp hname with
  | inl heq => exact ⟨d.ticks, Nat.lt_succ_self _, heq⟩
  | inr hmem => exact h.tick name hmem

theorem Named.remove {d : Disk} (h : Named d) (name : String) : Named (d.remove name) := by
  intro name' hname'
  apply h name'
  unfold SortedMap.keys Disk.remove SortedMap.erase at *
  rw [List.mem_map] at *
  rcases hname' with ⟨p, hp, heq⟩
  exact ⟨p, List.mem_of_mem_filter hp, heq⟩

-- the files of the directory, the newest first
def files (d : Disk) : List Contents :=
  d.sstables.entries.reverse.map Prod.snd

-- the file `name` and those that are older
def older (d : Disk) (name : String) : List Contents :=
  (d.sstables.entries.filter fun p => p.1 ≤ name).reverse.map Prod.snd

theorem mem_files_iff {d : Disk} {contents : Contents} :
    contents ∈ files d ↔ ∃ name, d.sstables.get? name = some contents := by
  unfold files
  rw [List.mem_map]
  constructor
  . rintro ⟨⟨name, contents⟩, hmem, rfl⟩
    exact ⟨name, (SortedMap.get?_eq_some_iff _ _ _).mpr (List.mem_reverse.mp hmem)⟩
  . rintro ⟨name, hget⟩
    exact ⟨(name, contents), List.mem_reverse.mpr ((SortedMap.get?_eq_some_iff _ _ _).mp hget), rfl⟩

theorem files_write {d : Disk} {name : String} (contents : Contents)
    (h : ∀ x ∈ d.sstables.keys, x < name) :
    files (d.write (.sstable name) contents) = contents :: files d := by
  unfold files Disk.write
  dsimp only
  rw [SortedMap.entries_insert_of_forall_lt _ h, List.reverse_append]
  rfl

theorem older_write {d : Disk} {name : String} (contents : Contents)
    (h : ∀ x ∈ d.sstables.keys, x < name) :
    older (d.write (.sstable name) contents) name = contents :: files d := by
  unfold older files Disk.write
  dsimp only
  rw [SortedMap.entries_insert_of_forall_lt _ h, List.filter_eq_self.mpr]
  . rw [List.reverse_append]
    rfl
  . intro p hp
    rw [decide_eq_true_eq]
    cases List.mem_append.mp hp with
    | inl hmem => exact le_of_lt (h p.1 (List.mem_map_of_mem hmem))
    | inr heq =>
      rw [List.mem_singleton.mp heq]

theorem older_write_of_lt {d : Disk} {name name' : String} (contents : Contents)
    (h : ∀ x ∈ d.sstables.keys, x < name) (hlt : name' < name) :
    older (d.write (.sstable name) contents) name' = older d name' := by
  unfold older Disk.write
  dsimp only
  rw [SortedMap.entries_insert_of_forall_lt _ h, List.filter_append,
    List.filter_cons_of_neg (by simpa using hlt), List.filter_nil, List.append_nil]

variable (c : Crates)

def layer (contents : Contents) : Layer String Entry where
  find := fileGet c contents
  scan key := (fileScan c contents).find? fun entry => entry.key = key
  scan_of_find := fileScan_of_fileGet

def layers (d : Disk) : List (Layer String Entry) :=
  (files d).map (layer c)

variable {c} in
theorem exact_of_mem_layers {d : Disk} (h : ∀ contents ∈ files d, (layer c contents).Exact) :
    ∀ l ∈ layers c d, l.Exact := by
  intro l hl
  rw [layers, List.mem_map] at hl
  rcases hl with ⟨contents, hcontents, rfl⟩
  exact h contents hcontents

variable {c} in
theorem mem_of_scan {contents : Contents} {key : String} {entry : Entry}
    (h : (layer c contents).scan key = some entry) :
    entry ∈ fileScan c contents ∧ entry.key = key :=
  ⟨List.mem_of_find?_eq_some h, by simpa using List.find?_some h⟩

def lookup (memtable : MemTable) (ls : List (Layer String Entry)) (key : String) : Option Entry :=
  match memtable.get key with
  | some entry => Log.visible entry
  | none => (found ls key).filter Entry.isSet

variable {c}

theorem visible_eq (entry : Entry) : Log.visible entry = (some entry).filter Entry.isSet := by
  cases entry <;> rfl

theorem answers_findEntry {d : Disk} {contents : Contents} {path : Path} (filter : BloomFilter)
    (bound : Nat) (key : String) (hread : d.read path = contents) (fuel pos : Nat)
    (hfuel : (recordsFrom c contents bound pos).length < fuel) :
    ∃ pos', Answers (Log.findEntry c key fuel) d ⟨filter, bound, ⟨path, pos⟩⟩
      ((recordsFrom c contents bound pos).find? fun entry => entry.key = key)
      ⟨filter, bound, ⟨path, pos'⟩⟩ := by
  induction fuel generalizing pos with
  | zero => exact absurd hfuel (Nat.not_lt_zero _)
  | succ fuel ih =>
    have hnext := answers_readNextEntry (c := c) filter bound pos
      hread
    have htail := recordsFrom_nextPos (c := c) contents bound pos
    cases hrecords : recordsFrom c contents bound pos with
    | nil =>
      rw [hrecords] at hnext
      exact ⟨_, Answers.bind hnext (Answers.pure _)⟩
    | cons entry rest =>
      rw [hrecords] at hnext htail hfuel
      by_cases hkey : entry.key = key
      . refine ⟨nextPos c contents bound pos, Answers.bind hnext ?_⟩
        dsimp only [List.head?_cons]
        rw [if_pos hkey, List.find?_cons_of_pos (by simpa using hkey)]
        apply Answers.pure
      . have hrest := ih (nextPos c contents bound pos) (by
          rw [htail]
          exact Nat.lt_of_succ_lt_succ hfuel)
        rcases hrest with ⟨pos', hrest⟩
        refine ⟨pos', Answers.bind hnext ?_⟩
        dsimp only [List.head?_cons]
        rw [if_neg hkey, List.find?_cons_of_neg (by simpa using hkey)]
        rw [htail] at hrest
        exact hrest

theorem answers_getFromTables {d : Disk} {s : σ} (key : String)
    (ps : List (String × Contents)) (h : ∀ p ∈ ps, d.sstables.get? p.1 = some p.2) :
    Answers (Log.getFromTables c key (ps.map Prod.fst)) d s
      ((found (ps.map fun p => layer c p.2) key).filter Entry.isSet) s := by
  induction ps with
  | nil => apply Answers.pure
  | cons p ps ih =>
    have hp := h p List.mem_cons_self
    have hread : d.read (.sstable p.1) = p.2 := by
      change (d.sstables.get? p.1).getD .empty = p.2
      rw [hp]
      rfl
    have ih := ih fun p hp => h p (List.mem_cons_of_mem _ hp)
    rw [List.map_cons, List.map_cons, found_cons]
    unfold Log.getFromTables
    apply Answers.bind (answers_fromPath hp)
    change Answers _ _ _ (((fileGet c p.2 key).or _).filter _) _
    unfold fileGet
    cases hopen : openTable c p.2 with
    | none => exact ih
    | some table =>
      rcases table with ⟨filter, bound⟩
      dsimp only [Option.map_some]
      split
      . next hcontain =>
        rcases answers_findEntry (c := c) filter bound key hread
          (SSTable.fuel ⟨filter, bound, ⟨.sstable p.1, 0⟩⟩) 0 (length_recordsFrom_lt ..)
          with ⟨pos, hfind⟩
        apply Answers.bind (Answers.on hfind)
        cases (recordsFrom c p.2 bound 0).find? fun entry => entry.key = key with
        | none => exact ih
        | some entry =>
          rw [Option.some_or, ← visible_eq]
          apply Answers.pure
      . exact ih

theorem layers_eq (d : Disk) :
    layers c d = d.sstables.entries.reverse.map fun p => layer c p.2 := by
  rw [layers, files, List.map_map]
  rfl

/--
`get` looks the key up in the memtable and below it in the files.
-/
theorem answers_get (d : Disk) (log : Log) (key : String) :
    Answers (Log.get c key) d log (lookup log.memtable (layers c d) key) log := by
  unfold Log.get lookup
  apply Answers.bind Answers.getSelf
  cases log.memtable.get key with
  | some entry => apply Answers.pure
  | none =>
    apply Answers.bind Answers.readDir
    have hnames : sortNewestFirst d.sstables.keys
        = (d.sstables.entries.reverse).map Prod.fst := by
      rw [sortNewestFirst_eq d.sstables.keys_sorted, SortedMap.keys, List.map_reverse]
    dsimp only
    rw [hnames, layers_eq]
    apply answers_getFromTables
    intro p hp
    rw [SortedMap.get?_eq_some_iff]
    exact List.mem_reverse.mp hp

end Chickadee
