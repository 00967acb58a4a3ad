import Chickadee.Properties.Table
import Chickadee.Lemmas.Run

/-!
This module contains that the filters of the files are a fast path only: `get` is the search that
ignores them and scans every file.
-/

namespace Chickadee

open Faulty Faulty.Io Layers

variable {σ : Type} (c : Crates)

def scanTables (key : String) : List String → Os σ (Option Entry)
  | [] => return none
  | name :: rest => do
    match ← SSTable.fromPath c name with
    | none => scanTables key rest
    | some sstable =>
      match ← on sstable (Log.findEntry c key sstable.fuel) with
      | (some entry, _) => return Log.visible entry
      | (none, _) => scanTables key rest

def Log.getScan (key : String) : Os Log (Option Entry) := do
  let self ← getSelf
  match self.memtable.get key with
  | some entry => return visible entry
  | none =>
    let dirEntries := sortNewestFirst (← readDir)
    scanTables c key dirEntries

def Store.getScan (m : Store) (key : String) : Option (Option Entry) :=
  ((Log.getScan c key).run m.faultless).value?

def builtFilter (memtable : MemTable) : BloomFilter :=
  memtable.values.foldl (fun filter entry => filter.insert c (bytesOf entry.key))
    (.new (memtable.len * 10))

variable {c}

theorem answers_scanTables {d : Disk} {s : σ} (key : String) (ps : List (String × Contents))
    (h : ∀ p ∈ ps, d.sstables.get? p.1 = some p.2) :
    Answers (scanTables c key (ps.map Prod.fst)) d s
      ((newest (ps.map fun p => layer c p.2) key).filter Entry.isSet) s := by
  induction ps with
  | nil => apply Answers.pure
  | cons p ps ih =>
    have hp := h p List.mem_cons_self
    have hread : d.read (.sstable p.1) = p.2 := by
      change (d.sstables.get? p.1).getD .empty = p.2
      rw [hp]
      rfl
    have ih := ih fun p hp => h p (List.mem_cons_of_mem _ hp)
    rw [List.map_cons, List.map_cons, newest_cons]
    unfold scanTables
    apply Answers.bind (answers_fromPath hp)
    change Answers _ _ _ ((((fileScan c p.2).find? fun entry => entry.key = key).or _).filter _) _
    unfold fileScan
    cases hopen : openTable c p.2 with
    | none => exact ih
    | some table =>
      rcases table with ⟨filter, bound⟩
      dsimp only [Option.map_some]
      rcases answers_findEntry (c := c) filter bound key hread
        (SSTable.fuel ⟨filter, bound, ⟨.sstable p.1, 0⟩⟩) 0 (length_recordsFrom_lt ..)
        with ⟨pos, hfind⟩
      apply Answers.bind (Answers.on hfind)
      cases (recordsFrom c p.2 bound 0).find? fun entry => entry.key = key with
      | none => exact ih
      | some entry =>
        rw [Option.some_or, ← visible_eq]
        apply Answers.pure

theorem answers_getScan (d : Disk) (log : Log) (key : String) :
    Answers (Log.getScan c key) d log
      (match log.memtable.get key with
        | some entry => Log.visible entry
        | none => (newest (layers c d) key).filter Entry.isSet) log := by
  unfold Log.getScan
  apply Answers.bind Answers.getSelf
  cases log.memtable.get key with
  | some entry => apply Answers.pure
  | none =>
    apply Answers.bind Answers.readDir
    have hnames : sortNewestFirst d.sstables.keys
        = (d.sstables.entries.reverse).map Prod.fst := by
      rw [sortNewestFirst_eq d.sstables.keys_sorted, SortedMap.keys, List.map_reverse]
    dsimp only
    rw [hnames, layers_eq]
    apply answers_scanTables
    intro p hp
    rw [SortedMap.get?_eq_some_iff]
    exact List.mem_reverse.mp hp

namespace BloomFilter

theorem positions_of_pos {key : Bytes} {bitCount : Nat} (h : 0 < bitCount) :
    (positions c key bitCount).length = 7
      ∧ ∀ pos ∈ positions c key bitCount, pos / 8 < divCeil bitCount 8 := by
  unfold positions
  rw [List.filterMap_congr (g := fun i => some
    ((c.xxh3 key 0 + UInt64.ofNat i * c.xxh3 key 1).toNat % bitCount))
    (fun i _ => if_neg (Nat.ne_of_gt h)), List.filterMap_eq_map']
  refine ⟨by simp, ?_⟩
  intro pos hpos
  rw [List.mem_map] at hpos
  rcases hpos with ⟨i, -, rfl⟩
  have := Nat.mod_lt (c.xxh3 key 0 + UInt64.ofNat i * c.xxh3 key 1).toNat h
  unfold divCeil
  omega

end BloomFilter

theorem builtFilter_eq (memtable : MemTable) :
    builtFilter c memtable = BloomFilter.ofKeys c (memtable.values.map Entry.key) := by
  rw [builtFilter, ofKeys_eq, MemTable.length_values]

theorem WrittenBy.filter {memtable : MemTable} {contents : Contents}
    (h : WrittenBy c memtable contents) :
    Reading readBloomFilter contents 0 (.ok (some (builtFilter c memtable)), 0)
      ∧ ∀ entry ∈ memtable.values,
        (BloomFilter.positions c (bytesOf entry.key) (builtFilter c memtable).bitCount).length = 7
        ∧ (∀ pos ∈ BloomFilter.positions c (bytesOf entry.key) (builtFilter c memtable).bitCount,
          pos / 8 < (builtFilter c memtable).inner.length)
        ∧ (builtFilter c memtable).mayContain c (bytesOf entry.key) = true := by
  have hout := h.output
  have hfilter : filterOf contents.bytes = some (builtFilter c memtable) := by
    rw [hout.bytes_eq, filterOf_image hout.small, builtFilter_eq]
  constructor
  . have hread := reading_readBloomFilter contents 0
    rw [hfilter] at hread
    exact hread
  . intro entry hentry
    have hpos : 0 < (builtFilter c memtable).bitCount := by
      have := List.length_pos_iff.mpr h.nonempty
      rw [builtFilter_eq, BloomFilter.bitCount_ofKeys, List.length_map]
      omega
    have hlen : (builtFilter c memtable).inner.length
        = divCeil (builtFilter c memtable).bitCount 8 := by
      rw [builtFilter_eq, BloomFilter.bitCount_ofKeys, BloomFilter.length_ofKeys]
    rw [hlen]
    refine ⟨(BloomFilter.positions_of_pos hpos).1, (BloomFilter.positions_of_pos hpos).2, ?_⟩
    rw [builtFilter_eq]
    exact BloomFilter.mayContain_ofKeys c (List.mem_map_of_mem hentry)

theorem WrittenBy.footerClean {memtable : MemTable} {contents : Contents}
    (h : WrittenBy c memtable contents) (hfooter : ∀ q < (footerOf c memtable).length,
      parseRecord c.toCodec ((footerOf c memtable).drop q) = none) :
    FooterClean c memtable.values contents.bytes := by
  intro q hq
  rcases Nat.exists_eq_add_of_le hq with ⟨k, rfl⟩
  rw [h.output.bytes_eq, image, List.drop_length_add_append]
  by_cases hk : k < (footerOf c memtable).length
  . exact hfooter k hk
  . apply parseRecord_short
    change ((footerOf c memtable).drop k).length ≤ headerLen
    rw [List.length_drop]
    omega

/--
The filter that is read from a file is the one that was built for it, no bit of it is skipped and it
has no false negatives. So with any set of files without records in their footers `get` is the search
that ignores the filters.
-/
theorem get_eq_getScan :
    (∀ memtable contents, WrittenBy c memtable contents →
      (∀ m : Machine Call Disk File, m.Faultless → m.disk.read m.self.path = contents →
        m.self.pos = 0 → ∃ m', readBloomFilter.run m = .ok (some (builtFilter c memtable)) m')
      ∧ ∀ entry ∈ memtable.values,
        (BloomFilter.positions c (bytesOf entry.key) (builtFilter c memtable).bitCount).length = 7
        ∧ (∀ pos ∈ BloomFilter.positions c (bytesOf entry.key) (builtFilter c memtable).bitCount,
          pos / 8 < (builtFilter c memtable).inner.length)
        ∧ (builtFilter c memtable).mayContain c (bytesOf entry.key) = true)
      ∧ ∀ m : Store, (∀ contents ∈ files m.disk, ∃ memtable, WrittenBy c memtable contents
          ∧ ∀ q < (footerOf c memtable).length,
            parseRecord c.toCodec ((footerOf c memtable).drop q) = none) →
        ∀ key, m.get c key = m.getScan c key := by
  constructor
  . intro memtable contents h
    refine ⟨?_, h.filter.2⟩
    intro m hm hread hpos
    have hself : m.self = ⟨m.self.path, 0⟩ := by rw [← hpos]
    rcases (Answers.of_reading h.filter.1 hread).run hm rfl hself with ⟨m', hrun, -⟩
    exact ⟨m', hrun⟩
  . intro m h key
    have hexact : ∀ l ∈ layers c m.disk, l.Exact := by
      apply exact_of_mem_layers
      intro contents hcontents
      rcases h contents hcontents with ⟨memtable, hwritten, hfooter⟩
      exact hwritten.output.exact (hwritten.footerClean hfooter)
    have hget := answers_get (c := c) m.disk m.self key
    have hscan := answers_getScan (c := c) m.disk m.self key
    rcases hget.run m.faultless_faultless rfl rfl with ⟨m1, hrun1, -⟩
    rcases hscan.run m.faultless_faultless rfl rfl with ⟨m2, hrun2, -⟩
    unfold Store.get Store.getScan
    rw [hrun1, hrun2]
    unfold lookup
    rw [found_of_exact hexact]
    rfl

def olderEntries : List Entry :=
  [.set "a" "b", .set "x" "y"]

def newerEntries : List Entry :=
  [.delete "a", .set "c" "d"]

def olderDisk : Disk :=
  (flushedMachine Concrete.crates (Disk.empty Nat.succ)
    (memtableOf Concrete.crates olderEntries)).disk

def tableStore : Store :=
  (flushedMachine Concrete.crates olderDisk (memtableOf Concrete.crates newerEntries)).withSelf
    Log.closed

def cleanCheck (c : Crates) (disk : Disk) (entries : List Entry) : Bool :=
  writtenCheck c disk entries
    && (List.range (footerOf c (memtableOf c entries)).length).all fun q =>
      (parseRecord c.toCodec ((footerOf c (memtableOf c entries)).drop q)).isNone

theorem WrittenBy.of_cleanCheck (disk : Disk) (entries : List Entry)
    (h : cleanCheck c disk entries = true) :
    WrittenBy c (memtableOf c entries) (flushedContents c disk (memtableOf c entries))
      ∧ ∀ q < (footerOf c (memtableOf c entries)).length,
        parseRecord c.toCodec ((footerOf c (memtableOf c entries)).drop q) = none := by
  unfold cleanCheck at h
  rw [Bool.and_eq_true, List.all_eq_true] at h
  refine ⟨.of_check h.1, ?_⟩
  intro q hq
  exact Option.isNone_iff_eq_none.mp (h.2 q (List.mem_range.mpr hq))

/--
The tombstone hides the older value, and the filter of the newer file keeps `get` from reading it for
"x".
-/
theorem get_eq_getScan_tableStore :
    (builtFilter Concrete.crates (memtableOf Concrete.crates newerEntries)).mayContain
        Concrete.crates (bytesOf "a") = true
      ∧ (builtFilter Concrete.crates (memtableOf Concrete.crates newerEntries)).mayContain
        Concrete.crates (bytesOf "x") = false
      ∧ tableStore.get Concrete.crates "a" = some none
      ∧ tableStore.get Concrete.crates "x" = some (some (.set "x" "y"))
      ∧ ∀ key, tableStore.get Concrete.crates key = tableStore.getScan Concrete.crates key := by
  have holder := WrittenBy.of_cleanCheck (c := Concrete.crates) (Disk.empty Nat.succ) olderEntries
    (by decide +kernel)
  have hnewer := WrittenBy.of_cleanCheck (c := Concrete.crates) olderDisk newerEntries
    (by decide +kernel)
  refine ⟨?_, ?_, ?_, ?_, ?_⟩
  . have hvalues : .delete "a" ∈ (memtableOf Concrete.crates newerEntries).values := by
      decide +kernel
    exact (((get_eq_getScan (c := Concrete.crates)).1 _ _ hnewer.1).2 _ hvalues).2.2
  . decide +kernel
  . decide +kernel
  . decide +kernel
  . apply (get_eq_getScan (c := Concrete.crates)).2
    intro contents hcontents
    have hfiles : (files tableStore.disk).map Contents.bytes
        = [(flushedContents Concrete.crates olderDisk (memtableOf Concrete.crates newerEntries)).bytes,
          (flushedContents Concrete.crates (Disk.empty Nat.succ)
            (memtableOf Concrete.crates olderEntries)).bytes] := by
      decide +kernel
    have hbytes := List.mem_map_of_mem (f := Contents.bytes) hcontents
    rw [hfiles, List.mem_pair] at hbytes
    rcases hbytes with hbytes | hbytes
    . rw [Contents.eq_of_bytes hbytes]
      exact ⟨_, hnewer⟩
    . rw [Contents.eq_of_bytes hbytes]
      exact ⟨_, holder⟩

end Chickadee
