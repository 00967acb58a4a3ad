import Chickadee.Impl.Concrete
import Chickadee.Lemmas.Run

/-!
This module contains that a compaction computes the merge one would write down: the last record of
every key, without the tombstones.
-/

namespace Chickadee

open Faulty Faulty.Io Layers KWay

variable {c : Crates} {m : Store}

def allRecords (c : Crates) (d : Disk) : List Entry :=
  (files d).reverse.flatMap (fileScan c)

-- the newest record of every key, in the order of the keys and without the tombstones
def reference (c : Crates) (d : Disk) : List Entry :=
  (replay (allRecords c d)).values.filter Entry.isSet

theorem find_reverse {s : List Entry} (h : Ascending Entry.key s) (key : String) :
    find Entry.key s.reverse key = find Entry.key s key := by
  have hnodup : (s.map Entry.key).Nodup := (List.pairwise_map.mpr h).imp ne_of_lt
  have hfirst := first_eq_find [s] (by simp : ∀ a, (∃ s' ∈ [s], a ∈ s') ↔ a ∈ s.reverse)
    (by rw [List.map_reverse, List.nodup_reverse]; exact hnodup) key
  rw [← hfirst, first_cons, first_nil, Option.or_none]

theorem get?_replay (entries : List Entry) (key : String) :
    (replay entries).get? key = find Entry.key entries.reverse key := by
  induction entries using List.reverseRecOn with
  | nil => rfl
  | append_singleton entries entry ih =>
    rw [replay_append, SortedMap.get?_insert, List.reverse_append, List.reverse_singleton,
      List.singleton_append, find_cons, ih]
    by_cases hkey : key = entry.key
    . rw [if_pos hkey, if_pos hkey.symm]
    . rw [if_neg hkey, if_neg (Ne.symm hkey)]

theorem get?_replay_allRecords {d : Disk}
    (h : ∀ contents ∈ files d, TableEntries c (fileScan c contents)) (key : String) :
    (replay (allRecords c d)).get? key = newest (layers c d) key := by
  rw [get?_replay, allRecords, layers]
  generalize files d = contents at h
  induction contents with
  | nil => rfl
  | cons o contents ih =>
    have hscan : (layer c o).scan key = find Entry.key (fileScan c o) key := rfl
    rw [List.map_cons, newest_cons, hscan, ← ih fun o ho => h o (List.mem_cons_of_mem _ ho),
      ← find_reverse (h o List.mem_cons_self).ascending, List.reverse_cons, List.flatMap_append,
      List.reverse_append, List.flatMap_singleton]
    exact List.find?_append

theorem reference_ascending (c : Crates) (d : Disk) : Ascending Entry.key (reference c d) := by
  unfold reference
  rw [← inner_foldl_processed_new (c := c)]
  exact (MemTable.values_pairwise _).filter _

theorem mem_reference_iff {d : Disk}
    (h : ∀ contents ∈ files d, TableEntries c (fileScan c contents)) (entry : Entry) :
    entry ∈ reference c d
      ↔ newest (layers c d) entry.key = some entry ∧ entry.isSet = true := by
  rw [← get?_replay_allRecords h, reference, List.mem_filter, ← inner_foldl_processed_new (c := c)]
  exact and_congr_left' MemTable.mem_values_iff

theorem ascending_eq_of_mem_iff {s s' : List Entry} (hs : Ascending Entry.key s)
    (hs' : Ascending Entry.key s') (h : ∀ entry, entry ∈ s ↔ entry ∈ s') : s = s' := by
  have : Std.Irrefl fun a b : Entry => a.key < b.key := ⟨fun a => lt_irrefl a.key⟩
  have : Std.Antisymm fun a b : Entry => a.key < b.key :=
    ⟨fun a b hab hba => absurd hba (lt_asymm hab)⟩
  exact hs.eq_of_mem_iff hs' h

theorem Chunks.eq_of_ascending {tables : List (List Entry)} {out : List Entry}
    (h : Chunks tables .new out) (hout : Ascending Entry.key out)
    (htables : ∀ table ∈ tables, Ascending Entry.key table) : tables.reverse.flatten = out := by
  rcases h with ⟨chunks, last, rfl, hchunks, hlast⟩
  have hnil : last = [] := List.nil_perm.mp hlast
  rw [hnil, List.append_nil] at hout ⊢
  have hchunk : ∀ chunk ∈ chunks, Ascending Entry.key chunk := by
    intro chunk hmem
    exact hout.sublist (List.sublist_flatten_of_mem (List.mem_reverse.mpr hmem))
  clear hout hlast
  have heq : tables = chunks := by
    induction hchunks with
    | nil => rfl
    | cons hperm _ ih =>
      congr 1
      . exact ascending_eq_of_mem_iff (htables _ List.mem_cons_self) (hchunk _ List.mem_cons_self)
          fun _ => hperm.mem_iff
      . exact ih (fun t ht => htables t (List.mem_cons_of_mem _ ht))
          (fun o ho => hchunk o (List.mem_cons_of_mem _ ho))
  rw [heq]

theorem MergedInto.flatten_eq {tables : List (List Entry)} {d d' : Disk}
    (h : MergedInto c tables d d') (hnamed : Named d) (hclock : ClockUp d')
    (hscans : ∀ contents ∈ files d, TableEntries c (fileScan c contents)) :
    tables.reverse.flatten = reference c d := by
  have hgrown := h.grown hnamed hclock hscans
  rcases h with ⟨streams, seenKeys, hrolling, hnil⟩
  rcases hrolling.merge with ⟨out, hmerge, hchunks⟩
  have hstart : ∀ s ∈ streamsOf c d, Ascending Entry.key s :=
    fun s hs => (tableEntries_of_mem_streamsOf hscans hs).ascending
  have hascending := (hmerge.ascending hstart).1
  rw [hchunks.eq_of_ascending hascending]
  . apply ascending_eq_of_mem_iff hascending (reference_ascending c d)
    intro entry
    rw [mem_reference_iff hscans]
    constructor
    . intro hentry
      exact ⟨(newest_of_mem hscans hmerge entry hentry).1, (hmerge.of_mem entry hentry).1⟩
    . rintro ⟨hnewest, hset⟩
      have hfind := hmerge.find_eq hnil entry.key
      rw [comesUp_streamsOf hscans, hnewest, Option.filter_some_pos hset] at hfind
      exact mem_of_find hfind
  . intro table htable
    rcases hgrown.entries_eq with ⟨new, -, houts⟩
    rcases List.forall₂_iff_get.mp houts with ⟨hlen, hget⟩
    rcases List.mem_iff_getElem.mp htable with ⟨i, hi, rfl⟩
    exact (hget i hi (by omega)).tableEntries.ascending

theorem map_fileScan {tables : List (List Entry)} {outs : List Contents}
    (h : List.Forall₂ (Output c) tables outs)
    (hclean : ∀ contents ∈ outs, ∀ entries, TableEntries c entries →
      contents.bytes = image c entries → FooterClean c entries contents.bytes) :
    outs.map (fileScan c) = tables := by
  induction h with
  | nil => rfl
  | @cons entries contents _ _ hout _ ih =>
    have hfooter := hclean contents List.mem_cons_self entries hout.tableEntries hout.bytes_eq
    rw [List.map_cons, hout.fileScan_eq hfooter, ih fun o ho => hclean o (List.mem_cons_of_mem _ ho)]

/--
A compaction leaves only new files behind. Together, and in the order of their names, they hold the
reference merge of the old ones. The log and the WAL are as they were.
-/
theorem compact_eq_reference (hm : m.Faultless) (hnamed : Named m.disk)
    (hscans : ∀ contents ∈ files m.disk, TableEntries c (fileScan c contents))
    (hT : ((compact c).run m).machine.Always (Sound c))
    (hspace : ∀ m', (compact c).run m ≠ .error (.raised .fileTooLarge) m') :
    ∃ m', (compact c).run m = .ok () m'
      ∧ (∀ name ∈ m'.disk.sstables.keys, name ∉ m.disk.sstables.keys)
      ∧ allRecords c m'.disk = reference c m.disk
      ∧ (reference c m.disk).Pairwise (fun e e' => e.key < e'.key)
      ∧ m'.self = m.self ∧ m'.disk.wal = m.disk.wal := by
  have hwp : wp (Sound c) (compact c) (fun _ m' => m'.self = m.self
      ∧ (∀ name ∈ m'.disk.sstables.keys, name ∉ m.disk.sstables.keys)
      ∧ allRecords c m'.disk = reference c m.disk ∧ m'.disk.wal = m.disk.wal)
      (fun e _ => e = .fault ∨ e = .raised .fileTooLarge) m := by
    apply wp_selfless selfless_compact
    apply wp_conclude
    apply wp_compact_of_serializable
    . intro s hs entry hentry
      exact ((tableEntries_of_mem_streamsOf hscans hs).writable entry hentry).serializable
    . exact namesFresh_of_clockUp (fun _ hd => Sound.clock hd) hnamed
    . intro m' d' tables _ hmerged hdisk hm' hself
      have hclock := hm'.1.clock
      rw [hdisk, clockUp_removeAll] at hclock
      have hgrown := hmerged.grown hnamed hclock hscans
      rcases hgrown.entries_eq with ⟨new, hentries, houts⟩
      rcases removeAll_entries hentries (List.prefix_refl _) with ⟨qs, -, hrest, hall⟩
      rw [hall rfl, List.nil_append, ← List.map_reverse] at hrest
      rw [SortedMap.keys, ← List.map_reverse] at hdisk
      rw [← hdisk] at hrest
      refine ⟨hself, ?_, ?_, ?_⟩
      . -- the new files come after the old ones
        intro name hname hold
        have hsorted := d'.sstables.sorted
        rw [hentries, List.pairwise_append] at hsorted
        rw [SortedMap.keys, hrest, List.mem_map] at hname
        rw [SortedMap.keys, List.mem_map] at hold
        rcases hname with ⟨p, hp, rfl⟩
        rcases hold with ⟨q, hq, heq⟩
        exact absurd heq (ne_of_lt (hsorted.2.2 q hq p hp))
      . rw [← hmerged.flatten_eq hnamed hclock hscans, allRecords, files, hrest]
        have hfooters := hm'.1.footers
        unfold FootersClean files at hfooters
        rw [hrest] at hfooters
        rw [List.flatMap_def]
        congr 1
        rw [List.map_reverse]
        congr 1
        exact map_fileScan houts hfooters
      . rw [hdisk, removeAll_wal, hgrown.wal_eq]
    . intro e m' d' tables memtable _ _ _ he _ _
      exact he
    . intros
      exact Or.inl rfl
  rcases exists_ok_of_space hwp hm hT hspace with ⟨_, m', hrun, hself, hkeys, hrecords, hwal⟩
  exact ⟨m', hrun, hkeys, hrecords, reference_ascending c m.disk, hself, hwal⟩

def mergedOps : List Op :=
  [.write (.set "a" "b"), .flush, .write (.set "x" "y"), .flush, .write (.delete "a"), .flush]

def mergedStore : Store :=
  Store.faultless ((runOps Concrete.crates (.reopen :: mergedOps)).run (Store.fresh Nat.succ)).machine

theorem compact_eq_reference_mergedStore :
    ∃ m', (compact Concrete.crates).run mergedStore = .ok () m'
      ∧ allRecords Concrete.crates m'.disk = [.set "x" "y"] := by
  have hreach : Reach Concrete.crates
      ((runOps Concrete.crates (.reopen :: mergedOps)).run (Store.fresh Nat.succ)).machine := by
    apply Reach.of_fresh
    . intro entry hentry
      simp only [mergedOps, List.mem_cons, Op.write.injEq, reduceCtorEq, List.not_mem_nil, or_false,
        false_or] at hentry
      rcases hentry with rfl | rfl | rfl
      . exact Writable.of_check _ (by decide +kernel)
      . exact Writable.of_check _ (by decide +kernel)
      . exact Writable.of_check _ (by decide +kernel)
    . decide +kernel
  rcases hreach.inv (always_strict_of_check (by decide +kernel)) with ⟨spec, hinv⟩
  have hcompact := compact_eq_reference (c := Concrete.crates) (m := mergedStore)
    (Store.faultless_faultless _) hinv.named hinv.scans
    ((always_strict_of_check (by decide +kernel)).mono fun _ => Strict.sound)
    (by
      intro m' hm'
      have hvalue : ((compact Concrete.crates).run mergedStore).value? = some () := by
        decide +kernel
      rw [hm'] at hvalue
      clear hm'
      contradiction)
  rcases hcompact with ⟨m', hrun, -, hrecords, -⟩
  refine ⟨m', hrun, ?_⟩
  rw [hrecords]
  decide +kernel

end Chickadee
