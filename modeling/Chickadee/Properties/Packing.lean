import Chickadee.Lemmas.Size
import Chickadee.Lib.Packing
import Chickadee.Properties.Merging

/-!
This module contains which files a compaction leaves behind, byte for byte: the merge, cut where the
memtable of the compaction is full. So it does not matter how often the files are compacted.
-/

namespace Chickadee

open Faulty Faulty.Io Layers KWay Packing

variable {c : Crates}

-- the entries in files of their own, each of them but for the last one above the threshold of a flush
def fileParts (c : Crates) (entries : List Entry) : List (List Entry) :=
  parts (entryWeight c) (flushThresholdMb * 2 ^ 20) [] entries

def images (d : Disk) : List Bytes :=
  d.sstables.entries.map fun p => p.2.bytes

theorem values_processed_of_lt {memtable : MemTable} {entry : Entry}
    (h : ∀ e ∈ memtable.values, e.key < entry.key) :
    (memtable.processed c entry).values = memtable.values ++ [entry] := by
  have hkeys : ∀ key ∈ memtable.inner.keys, key < entry.key := by
    intro key hkey
    rcases List.mem_map.mp hkey with ⟨p, hp, rfl⟩
    rw [← memtable.keyed p hp]
    exact h p.2 (List.mem_map_of_mem hp)
  have hentries := SortedMap.entries_insert_of_forall_lt entry hkeys
  change ((memtable.inner.insert entry.key entry).entries).map Prod.snd = _
  rw [hentries, List.map_append]
  rfl

theorem sizeOf_eq_min {entry : Entry} (h : Serializable c.toCodec entry) :
    MemTable.sizeOf c entry = min (entryWeight c entry) u64Max := by
  rcases h with ⟨payload, h, -⟩
  simp only [MemTable.sizeOf, MemTable.entrySize, entryWeight, h, saturatingAdd, Option.getD_some]

theorem size_processed_of_new {memtable : MemTable} {entry : Entry}
    (h : Serializable c.toCodec entry) (hnew : memtable.get entry.key = none) :
    (memtable.processed c entry).size = min (memtable.size + entryWeight c entry) u64Max := by
  unfold MemTable.get at hnew
  simp only [MemTable.processed, MemTable.store, hnew, saturatingAdd, sizeOf_eq_min h]
  omega

-- the files and the memtable are what the entries written so far are cut into
structure Packed (c : Crates) (tables : List (List Entry)) (memtable : MemTable) : Prop where
  size_eq : memtable.size = total (entryWeight c) memtable.values
  parts_eq : ∀ rest, fileParts c (tables.reverse.flatten ++ memtable.values ++ rest)
    = tables.reverse ++ parts (entryWeight c) (flushThresholdMb * 2 ^ 20) memtable.values rest

namespace Packed

variable {tables : List (List Entry)} {memtable : MemTable}

theorem init : Packed c [] .new :=
  ⟨rfl, fun _ => rfl⟩

theorem processed (h : Packed c tables memtable) {entry : Entry}
    (hentry : Serializable c.toCodec entry) (hlt : ∀ e ∈ memtable.values, e.key < entry.key) :
    if (memtable.processed c entry).shouldFlush = true then
      Packed c ((memtable.processed c entry).values :: tables) .new
    else
      Packed c tables (memtable.processed c entry) := by
  have hnew : memtable.get entry.key = none := by
    cases hget : memtable.get entry.key with
    | none => rfl
    | some old =>
      have hkey := MemTable.key_of_get hget
      have hmem : old ∈ memtable.values := by rw [MemTable.mem_values_iff, hkey, hget]
      exact absurd hkey (ne_of_lt (hlt old hmem))
  have hvalues := values_processed_of_lt (c := c) hlt
  have hprocessed := size_processed_of_new hentry hnew
  have htotal : total (entryWeight c) (memtable.values ++ [entry])
      = memtable.size + entryWeight c entry := by
    rw [total_append, ← h.size_eq]
    rfl
  have hparts := fun rest => h.parts_eq (entry :: rest)
  by_cases hflush : (memtable.processed c entry).shouldFlush = true
  . rw [if_pos hflush, hvalues]
    have hfull : flushThresholdMb * 2 ^ 20 < total (entryWeight c) (memtable.values ++ [entry]) := by
      have hlt := of_decide_eq_true hflush
      rw [htotal]
      omega
    refine ⟨rfl, ?_⟩
    intro rest
    have hrest := hparts rest
    rw [parts_of_lt hfull] at hrest
    change fileParts c (((memtable.values ++ [entry]) :: tables).reverse.flatten ++ [] ++ rest)
      = ((memtable.values ++ [entry]) :: tables).reverse ++ parts _ _ [] rest
    simpa using hrest
  . rw [if_neg hflush]
    rw [MemTable.not_shouldFlush_iff] at hflush
    have hle : total (entryWeight c) (memtable.values ++ [entry]) ≤ flushThresholdMb * 2 ^ 20 := by
      rw [htotal]
      unfold flushThresholdMb at hflush ⊢
      unfold u64Max at hprocessed
      omega
    refine ⟨?_, ?_⟩
    . rw [hvalues, htotal]
      rw [htotal] at hle
      unfold flushThresholdMb at hle
      unfold u64Max at hprocessed
      omega
    . intro rest
      have hrest := hparts rest
      rw [parts_of_le hle] at hrest
      rw [hvalues, ← hrest]
      simp

end Packed

theorem steady_packed {d : Disk} (hscans : ∀ contents ∈ files d, TableEntries c (fileScan c contents)) :
    Steady c d (streamsOf c d) (Packed c) := by
  intro d' streams tables memtable seenKeys min entry hrolling h hleast hwinner hsize
  unfold settled
  by_cases hnew : entry.key ∉ seenKeys ∧ entry.isSet = true
  . rw [if_pos hnew]
    rcases hrolling.merge with ⟨out, hmerge, hchunks⟩
    have hstart : ∀ s ∈ streamsOf c d, Ascending Entry.key s :=
      fun s hs => (tableEntries_of_mem_streamsOf hscans hs).ascending
    rcases (hmerge.exists_of_winner hwinner).2 with ⟨s, hs, hmem⟩
    apply h.processed
    . exact ((tableEntries_of_mem_streamsOf hscans hs).writable entry hmem).serializable
    . -- what has been emitted comes before all that is left
      intro e he
      have hout : e ∈ out := (hchunks.mem_iff e).mp ⟨_, List.mem_cons_self, he⟩
      rcases List.exists_of_findSome?_eq_some hwinner with ⟨s', hs', hhead⟩
      have hmem' := List.mem_of_head? (Option.filter_eq_some_iff.mp hhead).1
      exact (hmerge.ascending hstart).2 e hout s' hs' entry hmem'
  . rw [if_neg hnew, if_neg (MemTable.not_shouldFlush_iff.mpr hsize)]
    exact h

theorem Finished.parts_eq {tables : List (List Entry)} (h : Finished (Packed c) tables) :
    fileParts c tables.reverse.flatten = tables.reverse := by
  rcases h with ⟨tables', memtable, hpacked, rfl⟩
  have hparts := hpacked.parts_eq []
  rw [List.append_nil] at hparts
  by_cases hempty : memtable.isEmpty = true
  . have hnil : memtable.values = [] := by
      rw [MemTable.eq_new_of_isEmpty hempty]
      rfl
    rw [if_pos hempty]
    rw [hnil, List.append_nil] at hparts
    rw [hparts]
    exact List.append_nil _
  . have hne : memtable.values ≠ [] := by
      intro hnil
      apply hempty
      have hsize := hpacked.size_eq
      rw [hnil] at hsize
      have hentries : memtable.inner.entries = [] := List.map_eq_nil_iff.mp hnil
      unfold MemTable.isEmpty SortedMap.isEmpty
      rw [hsize, hentries]
      rfl
    rw [if_neg hempty, List.reverse_cons, List.flatten_append, List.flatten_singleton, hparts,
      parts_of_ne_nil hne]

theorem values_replay (c : Crates) {entries : List Entry} (h : Ascending Entry.key entries) :
    (replay entries).values = entries := by
  rw [← inner_foldl_processed_new (c := c)]
  apply ascending_eq_of_mem_iff (MemTable.values_pairwise _) h
  intro entry
  have hnodup : (entries.map Entry.key).Nodup := (List.pairwise_map.mpr h).imp ne_of_lt
  have hget : (entries.foldl (MemTable.processed c) .new).get entry.key
      = find Entry.key entries entry.key := by
    rw [MemTable.get, inner_foldl_processed_new, get?_replay, find_reverse h]
  rw [MemTable.mem_values_iff, hget]
  exact ⟨mem_of_find, find_of_mem hnodup⟩

structure Compacted (c : Crates) (d d' : Disk) : Prop where
  named : Named d'
  parts : List.Forall₂ (Output c) (fileParts c (reference c d)) (d'.sstables.entries.map Prod.snd)
  clean : FootersClean c d'

namespace Compacted

variable {d d' : Disk}

theorem images_eq (h : Compacted c d d') :
    images d' = (fileParts c (reference c d)).map (image c) := by
  have hbytes : ∀ {tables : List (List Entry)} {outs : List Contents},
      List.Forall₂ (Output c) tables outs → outs.map Contents.bytes = tables.map (image c) := by
    intro tables outs houts
    induction houts with
    | nil => rfl
    | cons hout _ ih => rw [List.map_cons, List.map_cons, hout.bytes_eq, ih]
  rw [← hbytes h.parts, List.map_map]
  rfl

theorem map_fileScan_eq (h : Compacted c d d') :
    (d'.sstables.entries.map Prod.snd).map (fileScan c) = fileParts c (reference c d) := by
  apply map_fileScan h.parts
  intro contents hcontents
  apply h.clean
  unfold files
  rw [List.map_reverse, List.mem_reverse]
  exact hcontents

theorem scans (h : Compacted c d d') :
    ∀ contents ∈ files d', TableEntries c (fileScan c contents) := by
  intro contents hcontents
  unfold files at hcontents
  rw [List.map_reverse, List.mem_reverse] at hcontents
  have hout : ∃ entries, Output c entries contents := by
    have houts := h.parts
    generalize fileParts c (reference c d) = tables at houts
    generalize d'.sstables.entries.map Prod.snd = outs at houts hcontents
    induction houts with
    | nil => contradiction
    | cons hout _ ih =>
      cases List.mem_cons.mp hcontents with
      | inl heq =>
        rw [heq]
        exact ⟨_, hout⟩
      | inr hmem => exact ih hmem
  rcases hout with ⟨entries, hout⟩
  have hmem : contents ∈ files d' := by
    unfold files
    rw [List.map_reverse, List.mem_reverse]
    exact hcontents
  rw [hout.fileScan_eq (h.clean contents hmem entries hout.tableEntries hout.bytes_eq)]
  exact hout.tableEntries

theorem allRecords_eq (h : Compacted c d d') : allRecords c d' = reference c d := by
  have hscans := h.map_fileScan_eq
  unfold allRecords files
  rw [List.map_reverse, List.reverse_reverse, List.flatMap_def, hscans, fileParts, flatten_parts]
  rfl

theorem reference_eq (h : Compacted c d d') : reference c d' = reference c d := by
  have hset : ∀ entry ∈ reference c d, entry.isSet = true :=
    fun entry hentry => (List.mem_filter.mp hentry).2
  have hascending := reference_ascending c d
  rw [reference, h.allRecords_eq]
  generalize reference c d = entries at hset hascending
  rw [values_replay c hascending, List.filter_eq_self.mpr hset]

theorem trans {d'' : Disk} (h : Compacted c d d') (h' : Compacted c d' d'') : Compacted c d d'' := by
  refine ⟨h'.named, ?_, h'.clean⟩
  rw [← h.reference_eq]
  exact h'.parts

end Compacted

/--
A compaction writes the parts of the merge, whatever files the merge comes from.
-/
theorem wp_compact_parts {m : Store} (hnamed : Named m.disk)
    (hscans : ∀ contents ∈ files m.disk, TableEntries c (fileScan c contents)) :
    wp (Sound c) (compact c) (fun _ m' => Compacted c m.disk m'.disk)
      (fun e _ => e = .fault ∨ e = .raised .fileTooLarge) m := by
  apply wp_conclude
  apply wp_compact_of_steady (steady_packed hscans) Packed.init
  . intro s hs entry hentry
    exact ((tableEntries_of_mem_streamsOf hscans hs).writable entry hentry).serializable
  . exact namesFresh_of_clockUp (fun _ hd => Sound.clock hd) hnamed
  . intro m' d' tables _ hmerged hfinished hdisk hm'
    have hclock := hm'.1.clock
    rw [hdisk, clockUp_removeAll] at hclock
    have hgrown := hmerged.grown hnamed hclock hscans
    rcases hgrown.entries_eq with ⟨new, hentries, houts⟩
    rcases removeAll_entries hentries (List.prefix_refl _) with ⟨qs, -, hrest, hall⟩
    rw [hall rfl, List.nil_append, ← List.map_reverse] at hrest
    rw [SortedMap.keys, ← List.map_reverse] at hdisk
    rw [← hdisk] at hrest
    refine ⟨?_, ?_, hm'.1.footers⟩
    . rw [hdisk]
      exact hgrown.named.removeAll _
    . rw [← hmerged.flatten_eq hnamed hclock hscans, hfinished.parts_eq, hrest]
      rw [List.map_reverse] at houts
      rw [← List.reverse_reverse (new.map Prod.snd)]
      exact List.forall₂_reverse_iff.mpr houts
  . intro e m' d' tables memtable _ _ _ he _
    exact he
  . intros
    exact Or.inl rfl

theorem Compacted.wp_runOps {m : Store} {d : Disk} (h : Compacted c d m.disk) (n : Nat) :
    wp (Sound c) (runOps c (List.replicate n .compact)) (fun _ m' => Compacted c d m'.disk)
      (fun e _ => e = .fault ∨ e = .raised .fileTooLarge) m := by
  induction n generalizing m with
  | zero => exact wp_pure h
  | succ n ih =>
    apply wp_bind
    apply wp_mono (wp_compact_parts h.named h.scans)
    . intro _ m1 _ h1
      exact ih (h.trans h1)
    . intro e m1 _ _ he
      exact he

theorem inv_mergedStore : ∃ spec, Inv Concrete.crates Set.univ spec mergedStore.disk mergedStore.self := by
  have hreach : Reach Concrete.crates
      ((runOps Concrete.crates (.reopen :: mergedOps)).run (Store.fresh Nat.succ)).machine := by
    apply Reach.of_fresh
    . intro entry hentry
      simp only [mergedOps, List.mem_cons, Op.write.injEq, reduceCtorEq, List.not_mem_nil, or_false,
        false_or] at hentry
      rcases hentry with rfl | rfl | rfl
      . exact Writable.of_check _ (by decide +kernel)
      . exact Writable.of_check _ (by decide +kernel)
      . exact Writable.of_check _ (by decide +kernel)
    . decide +kernel
  exact hreach.inv (always_strict_of_check (by decide +kernel))

theorem run_mergedStore {x : Os Log Unit}
    (hcheck : (alwaysCheck Concrete.crates (x.run mergedStore).machine
      && (x.run mergedStore).value?.isSome) = true) :
    (x.run mergedStore).machine.Always (Sound Concrete.crates)
      ∧ ∀ m', x.run mergedStore ≠ .error (.raised .fileTooLarge) m' := by
  rw [Bool.and_eq_true] at hcheck
  constructor
  . exact (always_strict_of_check hcheck.1).mono fun _ => Strict.sound
  . intro m' hm'
    have hvalue := hcheck.2
    rw [hm'] at hvalue
    contradiction

/--
Where nothing fails, a compaction of files with ascending entries leaves the merge in files that are cut
where the memtable is full, whatever the old files were cut into. They are as many as the merge fills,
and one more.
-/
theorem compact_eq_parts {m : Store} (hm : m.Faultless) (hnamed : Named m.disk)
    (hscans : ∀ contents ∈ files m.disk, TableEntries c (fileScan c contents))
    (hT : ((compact c).run m).machine.Always (Sound c))
    (hspace : ∀ m', (compact c).run m ≠ .error (.raised .fileTooLarge) m') :
    ∃ m', (compact c).run m = .ok () m'
      ∧ images m'.disk = (fileParts c (reference c m.disk)).map (image c)
      ∧ (m'.disk.sstables.keys.length - 1) * (flushThresholdMb * 2 ^ 20 + 1)
        ≤ total (entryWeight c) (reference c m.disk) := by
  have hwp := wp_compact_parts hnamed hscans
  rcases exists_ok_of_space hwp hm hT hspace with ⟨_, m', hrun, hcompacted⟩
  refine ⟨m', hrun, hcompacted.images_eq, ?_⟩
  have hlength : m'.disk.sstables.keys.length = (fileParts c (reference c m.disk)).length := by
    have hparts := hcompacted.parts.length_eq
    rw [List.length_map] at hparts
    rw [hparts]
    exact List.length_map _
  rw [hlength]
  exact length_parts_le _

theorem compact_eq_parts_mergedStore :
    ∃ m', (compact Concrete.crates).run mergedStore = .ok () m'
      ∧ images m'.disk = [image Concrete.crates [.set "x" "y"]] := by
  rcases inv_mergedStore with ⟨spec, hinv⟩
  rcases run_mergedStore (x := compact Concrete.crates) (by decide +kernel) with ⟨hT, hspace⟩
  rcases compact_eq_parts (c := Concrete.crates) (m := mergedStore) (Store.faultless_faultless _)
    hinv.named hinv.scans hT hspace with ⟨m', hrun, himages, -⟩
  refine ⟨m', hrun, ?_⟩
  rw [himages]
  decide +kernel

/--
However often such files are compacted once more, they remain the same, byte for byte.
-/
theorem compact_often {m : Store} (hm : m.Faultless) (hnamed : Named m.disk)
    (hscans : ∀ contents ∈ files m.disk, TableEntries c (fileScan c contents)) (n : Nat)
    (hT : ((runOps c (.compact :: List.replicate n .compact)).run m).machine.Always (Sound c))
    (hspace : ∀ m', (runOps c (.compact :: List.replicate n .compact)).run m
      ≠ .error (.raised .fileTooLarge) m') :
    ∃ m', (runOps c (.compact :: List.replicate n .compact)).run m = .ok () m'
      ∧ images m'.disk = (fileParts c (reference c m.disk)).map (image c) := by
  have hwp : wp (Sound c) (runOps c (.compact :: List.replicate n .compact))
      (fun _ m' => Compacted c m.disk m'.disk)
      (fun e _ => e = .fault ∨ e = .raised .fileTooLarge) m := by
    apply wp_bind
    apply wp_mono (wp_compact_parts hnamed hscans)
    . intro _ m1 _ h1
      exact h1.wp_runOps n
    . intro e m1 _ _ he
      exact he
  rcases exists_ok_of_space hwp hm hT hspace with ⟨_, m', hrun, hcompacted⟩
  exact ⟨m', hrun, hcompacted.images_eq⟩

theorem compact_often_mergedStore :
    ∃ m', (runOps Concrete.crates [.compact, .compact]).run mergedStore = .ok () m'
      ∧ images m'.disk = [image Concrete.crates [.set "x" "y"]] := by
  rcases inv_mergedStore with ⟨spec, hinv⟩
  rcases run_mergedStore (x := runOps Concrete.crates [.compact, .compact])
    (by decide +kernel) with ⟨hT, hspace⟩
  rcases compact_often (c := Concrete.crates) (m := mergedStore) (Store.faultless_faultless _)
    hinv.named hinv.scans 1 hT hspace with ⟨m', hrun, himages⟩
  refine ⟨m', hrun, ?_⟩
  rw [himages]
  decide +kernel

end Chickadee
