import Chickadee.Properties.Refinement

/-!
This module contains what an interrupted compaction does to the answers of the store. The winning
tombstones are not in the files that it writes, and the files it deletes go one by one, the newest
first: in between, a tombstone may be gone already and a value that it hid may be there still.
-/

namespace Chickadee

open Faulty Faulty.Io Layers KWay

variable {c : Crates} {m : Store}

section Stopped

variable {σ : Type} {T : Disk → Prop} {m m' : Machine Call Disk σ}

theorem mergedInto_of_run {names : List String} (hclock : ∀ d, T d → ClockUp d)
    (hnamed : Named m.disk)
    (hscans : ∀ contents ∈ files m.disk, TableEntries c (fileScan c contents))
    (hrun : (mergeTables c).run m = .ok names m') (hT : m'.Always T) :
    names = m.disk.sstables.keys.reverse ∧ ∃ tables, MergedInto c tables m.disk m'.disk := by
  have hwp : wp T (mergeTables c) (fun names m' => names = m.disk.sstables.keys.reverse
      ∧ ∃ tables, MergedInto c tables m.disk m'.disk) (fun _ _ => True) m := by
    apply wp_mergeTables_of_steady steady_true trivial _ (namesFresh_of_clockUp hclock hnamed)
    . intro m' tables _ hmerged _
      exact ⟨rfl, tables, hmerged⟩
    . intros
      trivial
    . intro s hs entry hentry
      exact ((tableEntries_of_mem_streamsOf hscans hs).writable entry hentry).serializable
  exact hwp.of_ok hrun hT

theorem disk_eq_removeAll {names : List String} (hnodup : names.Nodup)
    (hnames : ∀ name ∈ names, name ∈ m.disk.sstables.keys)
    (hrun : (names.forM removeFile).run m = .ok () m') : m'.disk = removeAll names m.disk := by
  have hwp : wp (fun _ => True) (names.forM removeFile)
      (fun _ m' => m'.disk = removeAll names m.disk) (fun _ _ => True) m := by
    apply wp_removeAll names hnodup hnames
    . intro m' _ hdisk
      exact hdisk
    . intros
      trivial
  exact hwp.of_ok hrun ⟨trivial, fun _ _ => trivial⟩

/--
Of a compaction that comes to its end, the removal of any of the files may as well fail.
-/
theorem exists_stopped (hm : m.Faultless) (hclock : ∀ d, T d → ClockUp d) (hnamed : Named m.disk)
    (hscans : ∀ contents ∈ files m.disk, TableEntries c (fileScan c contents))
    (hrun : (compact c).run m = .ok () m') (hT : m'.Always T) {name : String}
    (hname : name ∈ m.disk.sstables.keys) :
    ∃ i, ((compact c).run (m.withFaults (failAt i 0))).machine.Always T
      ∧ Deleting c (older m.disk name) m.disk
        ((compact c).run (m.withFaults (failAt i 0))).machine.disk := by
  rw [compact_eq] at hrun ⊢
  rcases exists_of_run_bind hrun with ⟨names, m1, hmerge, hrun⟩
  have hT1 := (extends_of_ok hrun).always hT
  rcases mergedInto_of_run hclock hnamed hscans hmerge hT1 with ⟨rfl, tables, hmerged⟩
  -- the files that are removed before this one
  rcases List.append_of_mem (List.mem_reverse.mpr hname) with ⟨done, rest, hnames⟩
  have hforM : ((done ++ name :: rest).forM removeFile : Os σ Unit)
      = done.forM removeFile >>= fun _ => removeFile name >>= fun _ => rest.forM removeFile :=
    List.forM_append
  rw [hnames, hforM] at hrun
  rcases exists_of_run_bind hrun with ⟨⟨⟩, m2, hdone, hrun⟩
  have hT2 := (extends_of_ok hrun).always hT
  have hdisk2 : m2.disk = removeAll done m1.disk := by
    have hnodup : (done ++ name :: rest).Nodup := by
      rw [← hnames]
      exact List.nodup_reverse.mpr (m.disk.sstables.keys_sorted.imp ne_of_lt)
    apply disk_eq_removeAll hnodup.of_append_left _ hdone
    intro name' hname'
    rcases hmerged with ⟨_, _, hrolling, -⟩
    apply hrolling.added.unchanged.mem_keys
    rw [← List.mem_reverse, hnames]
    exact List.mem_append_left _ hname'
  -- the calls that come before are made as if nothing could fail
  have hbelow : ∀ i < m2.history.length, failAt m2.history.length 0 i = m.faults i := by
    intro i hi
    rw [hm i]
    exact if_neg (Nat.ne_of_lt hi)
  have hmerge' := run_withFaults_of_ok hmerge fun i hi =>
    hbelow i (Nat.lt_of_lt_of_le hi (extends_of_ok hdone).length_le)
  have hdone' := run_withFaults_of_ok hdone fun i hi =>
    (hbelow i hi).trans (congrFun (extends_of_ok hmerge).faults_eq i).symm
  have hstop : (removeFile name : Os σ Unit).run
      (m2.withFaults (failAt m2.history.length 0)) = .error .fault
        ((m2.withFaults (failAt m2.history.length 0)).record (.removeFile name) m2.disk m2.self) :=
    run_syscall_of_fault (if_pos rfl)
  refine ⟨m2.history.length, ?_⟩
  rw [run_bind_of_ok hmerge', hnames, hforM, run_bind_of_ok hdone', run_bind_of_error hstop]
  have hT2' : (m2.withFaults (failAt m2.history.length 0)).Always T := hT2
  refine ⟨hT2'.record (.removeFile name) m2.self, ?_⟩
  change Deleting c (older m.disk name) m.disk m2.disk
  rw [hdisk2]
  apply hmerged.deleting_older hnamed (hclock _ hT1.1) hscans
  rw [hnames]
  exact ⟨rest, by simp⟩

end Stopped

/--
Of a key that a tombstone hides, only what is left of the old files is seen when the log is opened.
-/
theorem Deleting.getReopened_eq {spec : Spec} {m' : Store} {rest : List Contents}
    (h : Deleting c rest m.disk m'.disk) (hinv : Inv c Set.univ spec m.disk m.self)
    (hclean : FootersClean c m'.disk) {key key' : String}
    (hwal : key ∉ (replayed c m.disk.wal).map Entry.key)
    (hnewest : newest (layers c m.disk) key = some (.delete key')) :
    m'.getReopened c key = some (lookup .new (rest.map (layer c)) key) := by
  have hentries : ∀ entry ∈ replayed c m'.disk.wal, Serializable c.toCodec entry := by
    rw [h.wal_eq]
    intro entry hentry
    exact (hinv.replayed_writable entry hentry).serializable
  have hget : ((replayed c m.disk.wal).foldl (MemTable.processed c) .new).get key = none := by
    rw [MemTable.get, inner_foldl_processed_new, get?_replay_eq_none_iff]
    exact hwal
  rcases h.merged hclean with ⟨outs, hfiles, -, hmerged⟩
  have houts : newest (outs.map (layer c)) key = none := by
    rw [hmerged.newest_eq key, hnewest]
    rfl
  have hfound : found (layers c m'.disk) key = found (rest.map (layer c)) key := by
    rw [layers, hfiles, List.map_append, found_append, found_of_exact hmerged.exact, houts,
      Option.none_or]
  rw [m'.getReopened_eq_lookup hentries, h.wal_eq]
  unfold lookup
  rw [hget, hfound]
  rfl

theorem Inv.eq_none_of_hidden {spec : Spec} {d : Disk} {log : Log} (hinv : Inv c Set.univ spec d log)
    {key key' : String} (hwal : key ∉ (replayed c d.wal).map Entry.key)
    (hnewest : newest (layers c d) key = some (.delete key')) : spec key = none := by
  let log' : Log := { Log.closed with
    memtable := (replayed c d.wal).foldl (MemTable.processed c) .new }
  have hlog : Inv c Set.univ spec d log' := hinv.reopen rfl rfl
  have hget : log'.memtable.get key = none := by
    rw [MemTable.get, inner_foldl_processed_new, get?_replay_eq_none_iff]
    exact hwal
  rw [← (hlog.shows key (Set.mem_univ key) hget).newest_eq, hnewest]
  rfl

-- a tombstone is the newest record of the key and an older file still holds a value
def Resurrectable (c : Crates) (m : Store) (key : String) : Prop :=
  key ∉ (replayed c m.disk.wal).map Entry.key
    ∧ (∃ key', newest (layers c m.disk) key = some (.delete key'))
    ∧ ∃ contents ∈ files m.disk, ∃ value, Entry.set key value ∈ fileScan c contents

-- a tombstone is the newest record of the key and a value is found once the newer files are gone
def Uncovered (c : Crates) (m : Store) (key : String) : Prop :=
  key ∉ (replayed c m.disk.wal).map Entry.key
    ∧ (∃ key', newest (layers c m.disk) key = some (.delete key'))
    ∧ ∃ name ∈ m.disk.sstables.keys, lookup .new ((older m.disk name).map (layer c)) key ≠ none

theorem older_subset (d : Disk) (name : String) : older d name ⊆ files d :=
  (List.filter_sublist.reverse.map _).subset

theorem Uncovered.resurrectable {key : String} (h : Uncovered c m key) : Resurrectable c m key := by
  rcases h with ⟨hwal, hnewest, name, -, hlookup⟩
  refine ⟨hwal, hnewest, ?_⟩
  rcases Option.ne_none_iff_exists'.mp hlookup with ⟨entry, hentry⟩
  change (found ((older m.disk name).map (layer c)) key).filter Entry.isSet = some entry at hentry
  rw [Option.filter_eq_some_iff] at hentry
  rcases exists_of_found hentry.1 with ⟨l, hl, hscan⟩
  rw [List.mem_map] at hl
  rcases hl with ⟨contents, hcontents, rfl⟩
  rcases mem_of_scan hscan with ⟨hmem, rfl⟩
  refine ⟨contents, ?_, ?_⟩
  . exact older_subset _ _ hcontents
  . cases entry with
    | set k value => exact ⟨value, hmem⟩
    | delete k =>
      have hset := hentry.2
      contradiction

theorem exists_older_eq_cons {d : Disk} {contents : Contents} (h : contents ∈ files d) :
    ∃ name ∈ d.sstables.keys, ∃ rest, older d name = contents :: rest := by
  unfold files at h
  rw [List.mem_map] at h
  rcases h with ⟨p, hp, rfl⟩
  rw [List.mem_reverse] at hp
  refine ⟨p.1, List.mem_map_of_mem hp, ?_⟩
  rcases List.append_of_mem hp with ⟨before, after, hentries⟩
  have hsorted := d.sstables.sorted
  rw [hentries, List.pairwise_append, List.pairwise_cons] at hsorted
  have hbefore : before.filter (fun q => q.1 ≤ p.1) = before := by
    rw [List.filter_eq_self]
    intro q hq
    rw [decide_eq_true_eq]
    exact le_of_lt (hsorted.2.2 q hq p List.mem_cons_self)
  have hafter : (p :: after).filter (fun q => q.1 ≤ p.1) = [p] := by
    rw [List.filter_cons_of_pos (by simp), List.filter_eq_nil_iff.mpr]
    intro q hq
    rw [decide_eq_true_eq, not_le]
    exact hsorted.2.1.1 q hq
  unfold older
  rw [hentries, List.filter_append, hbefore, hafter, List.reverse_append]
  exact ⟨_, rfl⟩

theorem Resurrectable.uncovered {key : String} (h : Resurrectable c m key)
    (hscans : ∀ contents ∈ files m.disk, TableEntries c (fileScan c contents))
    (hexact : ∀ l ∈ layers c m.disk, l.Exact) : Uncovered c m key := by
  rcases h with ⟨hwal, hnewest, contents, hcontents, value, hvalue⟩
  rcases exists_older_eq_cons hcontents with ⟨name, hname, rest, holder⟩
  refine ⟨hwal, hnewest, name, hname, ?_⟩
  have hnodup : ((fileScan c contents).map Entry.key).Nodup :=
    List.pairwise_map.mpr ((hscans contents hcontents).ascending.imp ne_of_lt)
  have hfind : (layer c contents).find key = some (.set key value) := by
    rw [hexact _ (List.mem_map_of_mem hcontents)]
    exact find_of_mem hnodup hvalue
  change (found ((older m.disk name).map (layer c)) key).filter Entry.isSet ≠ none
  rw [holder, List.map_cons, found_cons, hfind, Option.some_or]
  exact Option.some_ne_none _

theorem getReopened_of_not_uncovered (h : Reach c m) (faults : Nat → Option Nat)
    (hT : ((compact c).run (m.withFaults faults)).machine.Always (Strict c)) {key : String}
    (hkey : ¬Uncovered c m key) :
    Store.getReopened c ((compact c).run (m.withFaults faults)).machine key = m.get c key := by
  have hm : m.Always (Strict c) :=
    extends_withFaults _ faults ((compact c).extends_run _) hT
  rcases h.inv hm with ⟨spec, hinv⟩
  rw [hinv.get_eq (Set.mem_univ key)]
  by_cases hhides : key ∉ (replayed c m.disk.wal).map Entry.key
      ∧ ∃ key', newest (layers c m.disk) key = some (.delete key')
  . rcases hhides with ⟨hwal, key', hnewest⟩
    have hnone := hinv.eq_none_of_hidden hwal hnewest
    have hwp : wp (Strict c) (compact c) (fun _ m' => Store.getReopened c m' key = some (spec key))
        (fun _ m' => Store.getReopened c m' key = some (spec key)) (m.withFaults faults) := by
      apply wp_conclude
      apply wp_compact (m := m.withFaults faults) (fun _ hd => Strict.clock hd) hinv.named hinv.scans
      . intro m' _ hdeleting hm'
        rw [Deleting.getReopened_eq hdeleting hinv hm'.1.sound.footers hwal hnewest, hnone]
        rfl
      . intro e m' _ hleft _ hm'
        exact (hinv.leftover hleft hm'.1).getReopened_eq (Set.mem_univ key)
      . intro m' name _ hname hdeleting _ hm'
        rw [Deleting.getReopened_eq hdeleting hinv hm'.1.sound.footers hwal hnewest, hnone]
        by_contra hne
        exact hkey ⟨hwal, ⟨key', hnewest⟩, name, hname, fun heq => hne (congrArg some heq)⟩
    exact hwp.machine hT
  . -- the log that would be opened before the compaction sees the same files
    let log : Log := { Log.closed with
      memtable := (replayed c m.disk.wal).foldl (MemTable.processed c) .new }
    have hlog : Inv c {key} spec m.disk log :=
      (hinv.mono (Set.subset_univ {key})).reopen rfl rfl
    have hhidden : NoneHidden c {key} m.disk log := by
      intro key' hkey' hnone entry hnewest hdead
      rw [Set.mem_singleton_iff.mp hkey'] at hnone hnewest
      have hwal : key ∉ (replayed c m.disk.wal).map Entry.key := by
        rw [← get?_replay_eq_none_iff, ← inner_foldl_processed_new (c := c)]
        exact hnone
      cases entry with
      | set _ _ => contradiction
      | delete k => exact absurd ⟨hwal, k, hnewest⟩ hhides
    have hafter := hlog.of_compact faults hhidden hT
    exact hafter.getReopened_eq (Set.mem_singleton key)

/--
Where a compaction stops, by a crash or by an error, does not matter to a log that is opened
afterwards, but for the keys it can resurrect.
-/
theorem getReopened_compact (h : Reach c m) (faults : Nat → Option Nat)
    (hT : ((compact c).run (m.withFaults faults)).machine.Always (Strict c)) {key : String}
    (hkey : ¬Resurrectable c m key) :
    Store.getReopened c ((compact c).run (m.withFaults faults)).machine key = m.get c key :=
  getReopened_of_not_uncovered h faults hT fun huncovered => hkey huncovered.resurrectable

/--
Wherever a compaction that could come to its end stops, the key answers the same, if and only if no value
is found of it once the files with its tombstones are gone.
-/
theorem getReopened_compact_iff (h : Reach c m) {m' : Store}
    (hrun : (compact c).run m.faultless = .ok () m') (hm' : m'.Always (Strict c)) (key : String) :
    (∀ faults, ((compact c).run (m.withFaults faults)).machine.Always (Strict c) →
      Store.getReopened c ((compact c).run (m.withFaults faults)).machine key = m.get c key)
      ↔
    ¬Uncovered c m key := by
  constructor
  . rintro hsame ⟨hwal, ⟨key', hnewest⟩, name, hname, hlookup⟩
    rcases h.inv ((extends_of_ok hrun).always hm') with ⟨spec, hinv⟩
    rcases exists_stopped m.faultless_faultless (fun _ hd => Strict.clock hd) hinv.named hinv.scans
      hrun hm' hname with ⟨i, hT, hdeleting⟩
    have hstopped := Deleting.getReopened_eq hdeleting hinv hT.1.sound.footers hwal hnewest
    have hget := hsame _ hT
    rw [hinv.get_eq (Set.mem_univ key), hinv.eq_none_of_hidden hwal hnewest] at hget
    exact hlookup (Option.some.inj (hstopped.symm.trans hget))
  . intro hkey faults hT
    exact getReopened_of_not_uncovered h faults hT hkey

/--
Where all files have been written to their end, the keys that come back are those that are
`Resurrectable`.
-/
theorem getReopened_compact_iff_of_exact (h : Reach c m) {m' : Store}
    (hrun : (compact c).run m.faultless = .ok () m') (hm' : m'.Always (Strict c))
    (hexact : ∀ l ∈ layers c m.disk, l.Exact) (key : String) :
    (∀ faults, ((compact c).run (m.withFaults faults)).machine.Always (Strict c) →
      Store.getReopened c ((compact c).run (m.withFaults faults)).machine key = m.get c key)
      ↔
    ¬Resurrectable c m key := by
  rcases h.inv ((extends_of_ok hrun).always hm') with ⟨spec, hinv⟩
  rw [getReopened_compact_iff h hrun hm' key]
  exact not_congr ⟨fun huncovered => huncovered.resurrectable, fun hkey =>
    hkey.uncovered hinv.scans hexact⟩

def coveredOps : List Op :=
  [.write (.set "a" "b"), .flush, .write (.delete "a"), .flush]

def coveredStore : Store :=
  ((runOps Concrete.crates (.reopen :: coveredOps)).run (Store.fresh Nat.succ)).machine

def stopAtLast : Nat → Option Nat :=
  failAt 99 0

theorem writable_of_coveredOps (entry : Entry) (h : .write entry ∈ coveredOps) :
    Writable Concrete.crates.toCodec entry := by
  simp only [coveredOps, List.mem_cons, Op.write.injEq, reduceCtorEq, List.not_mem_nil, or_false,
    false_or] at h
  rcases h with rfl | rfl
  . exact Writable.of_check _ (by decide +kernel)
  . exact Writable.of_check _ (by decide +kernel)

theorem reach_coveredStore : Reach Concrete.crates coveredStore :=
  Reach.of_fresh writable_of_coveredOps (by decide +kernel)

theorem compact_resurrects :
    Reach Concrete.crates coveredStore
      ∧ ((compact Concrete.crates).run (coveredStore.withFaults stopAtLast)).machine.Always
        (Strict Concrete.crates)
      ∧ coveredStore.get Concrete.crates "a" = some none
      ∧ Store.getReopened Concrete.crates
        ((compact Concrete.crates).run (coveredStore.withFaults stopAtLast)).machine "a"
        = some (some (.set "a" "b")) := by
  refine ⟨reach_coveredStore, ?_, ?_, ?_⟩
  . exact always_strict_of_check (by decide +kernel)
  . decide +kernel
  . decide +kernel

def shadowedOps : List Op :=
  [.write (.set "c" "d"), .flush, .write (.set "a" "b"), .flush, .write (.set "c" "e"), .flush,
    .write (.delete "a"), .flush]

def shadowedStore : Store :=
  ((runOps Concrete.crates (.reopen :: shadowedOps)).run (Store.fresh Nat.succ)).machine

theorem reach_shadowedStore : Reach Concrete.crates shadowedStore := by
  apply Reach.of_fresh _ (by decide +kernel)
  intro entry hentry
  simp only [shadowedOps, List.mem_cons, Op.write.injEq, reduceCtorEq, List.not_mem_nil, or_false,
    false_or] at hentry
  rcases hentry with rfl | rfl | rfl | rfl <;> exact Writable.of_check _ (by decide +kernel)

-- the compaction stops before it deletes the file of `a => b`
def stopAtThird : Nat → Option Nat :=
  failAt 196 0

def interruptedStore : Store :=
  ((compact Concrete.crates).run (shadowedStore.withFaults stopAtThird)).machine

/--
The tombstone of "a" is gone by then, but "c" does not get its older value back.
-/
theorem getReopened_compact_shadowedStore :
    (files interruptedStore.disk).map (fileScan Concrete.crates)
        = [[.set "c" "e"], [.set "a" "b"], [.set "c" "d"]]
      ∧ shadowedStore.get Concrete.crates "c" = some (some (.set "c" "e"))
      ∧ interruptedStore.getReopened Concrete.crates "c" = shadowedStore.get Concrete.crates "c" := by
  refine ⟨?_, ?_, ?_⟩
  . decide +kernel
  . decide +kernel
  . apply getReopened_compact reach_shadowedStore stopAtThird
    . exact always_strict_of_check (by decide +kernel)
    . intro hkey
      rcases hkey.2.1 with ⟨key', hnewest⟩
      have hset : newest (layers Concrete.crates shadowedStore.disk) "c" = some (.set "c" "e") := by
        decide +kernel
      cases hset.symm.trans hnewest

end Chickadee
