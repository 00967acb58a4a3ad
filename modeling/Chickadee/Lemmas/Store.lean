import Chickadee.Lemmas.Ascending

/-!
This module contains the invariant of the store: WAL, memtable and files together are one map. It
holds while the log is live, and it is enough for the log that is opened on the same disk next.
-/

namespace Chickadee

open Faulty Faulty.Io Layers KWay

variable {σ : Type} {T : Disk → Prop} (c : Crates)

-- no record decodes from the footer of a file
def FootersClean (d : Disk) : Prop :=
  ∀ contents ∈ files d, ∀ entries, TableEntries c entries → contents.bytes = image c entries →
    FooterClean c entries contents.bytes

-- from a file, however much of it has been written, only the records decode that were written
def OnlyRecords (d : Disk) : Prop :=
  ∀ contents ∈ files d, ∀ entries, TableEntries c entries → contents.bytes <+: image c entries →
    RecordsOnly c entries contents.bytes

-- what runs without failures rely on
structure Sound (d : Disk) : Prop where
  clock : ClockUp d
  footers : FootersClean c d

-- what runs with failures rely on
structure Strict (d : Disk) : Prop where
  clock : ClockUp d
  records : OnlyRecords c d

abbrev Spec := String → Option Entry

def Spec.write (spec : Spec) (entry : Entry) : Spec :=
  fun key => if key = entry.key then Log.visible entry else spec key

/--
At the keys in `keys`, the memtable is a part of what a replay of the WAL gives, and this is a part of
`spec`. At those of them that are not in the memtable, the files show `spec`.
-/
structure Inv (keys : Set String) (spec : Spec) (d : Disk) (log : Log) : Prop where
  named : Named d
  path_eq : log.walFile.path = .wal
  wal : ∃ entries, (∀ entry ∈ entries, Writable c.toCodec entry)
    ∧ d.wal.bytes = encodedAll c.toCodec entries
    ∧ (∀ key ∈ keys, ∀ entry, (replay entries).get? key = some entry →
      spec key = Log.visible entry)
    ∧ ∀ key ∈ keys, ∀ entry, log.memtable.get key = some entry →
      (replay entries).get? key = some entry
  stored : log.memtable.Stored c
  scans : ∀ contents ∈ files d, TableEntries c (fileScan c contents)
  shows : ∀ key ∈ keys, log.memtable.get key = none → Shows Entry.isSet (layers c d) key (spec key)

variable {c}

theorem Strict.sound {d : Disk} (h : Strict c d) : Sound c d := by
  refine ⟨h.clock, ?_⟩
  intro contents hcontents entries hentries hbytes
  apply FooterClean.of_recordsOnly hentries
  apply h.records contents hcontents entries hentries
  rw [hbytes]

-- a test for `Strict` where no file has more than one record
def strictCheck (c : Crates) (d : Disk) : Bool :=
  ((List.range d.ticks).all fun i =>
    d.clock i < 10 ^ 20 && (List.range i).all fun j => d.clock j < d.clock i)
  && (files d).all fun contents => (List.range contents.length).all fun q =>
    q == 0 || (parseRecord c.toCodec (contents.bytes.drop q)).isNone

theorem Strict.of_check {d : Disk} (h : strictCheck c d = true) : Strict c d := by
  unfold strictCheck at h
  simp only [Bool.and_eq_true, List.all_eq_true, List.mem_range, decide_eq_true_eq,
    Bool.or_eq_true, beq_iff_eq, Option.isNone_iff_eq_none] at h
  rcases h with ⟨hclock, hrecords⟩
  refine ⟨fun i hi => hclock i hi, ?_⟩
  intro contents hcontents entries hentries hpart q hq
  have hlong := (of_parseRecord (Option.some_get hq).symm).1
  rw [List.length_drop] at hlong
  cases hrecords contents hcontents q (by unfold Contents.length; omega) with
  | inr hnone =>
    rw [hnone] at hq
    contradiction
  | inl hzero =>
    subst hzero
    cases entries with
    | nil =>
      -- the image of no entries is shorter than a record
      have := hpart.length_le
      unfold headerLen at hlong
      simp [length_image, BloomFilter.length_ofKeys, divCeil] at this
      omega
    | cons entry entries => exact ⟨[], entry, entries, rfl, rfl⟩

def alwaysCheck {σ : Type} (c : Crates) (m : Machine Call Disk σ) : Bool :=
  strictCheck c m.disk && m.history.all fun s => strictCheck c s.before

theorem always_strict_of_check {m : Machine Call Disk σ} (h : alwaysCheck c m = true) :
    m.Always (Strict c) := by
  unfold alwaysCheck at h
  rw [Bool.and_eq_true, List.all_eq_true] at h
  exact ⟨Strict.of_check h.1, fun s hs => Strict.of_check (h.2 s hs)⟩

section Layer

variable {entries : List Entry} {contents : Contents}

theorem Output.fileScan_eq (h : Output c entries contents)
    (hclean : FooterClean c entries contents.bytes) : fileScan c contents = entries :=
  fileScan_image h.tableEntries h.small hclean h.bytes_eq

theorem Output.exact (h : Output c entries contents)
    (hclean : FooterClean c entries contents.bytes) : (layer c contents).Exact := by
  intro key
  change fileGet c contents key = (fileScan c contents).find? _
  rw [fileGet_image h.tableEntries h.small hclean h.bytes_eq, h.fileScan_eq hclean]

theorem Output.scan_eq (h : Output c entries contents)
    (hclean : FooterClean c entries contents.bytes) (key : String) :
    (layer c contents).scan key = KWay.find Entry.key entries key := by
  change (fileScan c contents).find? _ = _
  rw [h.fileScan_eq hclean]
  rfl

theorem scan_sublist (hscan : (fileScan c contents).Sublist entries) (key : String) {entry : Entry}
    (h : (layer c contents).scan key = some entry) : entry ∈ entries ∧ entry.key = key :=
  ⟨hscan.subset (mem_of_scan h).1, (mem_of_scan h).2⟩

theorem TableEntries.sublist {entries' : List Entry} (h : TableEntries c entries)
    (hsub : entries'.Sublist entries) : TableEntries c entries' :=
  ⟨h.ascending.sublist hsub, fun entry hentry => h.writable entry (hsub.subset hentry)⟩

end Layer

theorem newest_of_outputs {tables : List (List Entry)} {outs : List Contents}
    (h : List.Forall₂ (Output c) tables outs)
    (hclean : ∀ contents ∈ outs, ∀ entries, TableEntries c entries →
      contents.bytes = image c entries → FooterClean c entries contents.bytes) :
    (∀ l ∈ outs.map (layer c), l.Exact)
      ∧ (∀ contents ∈ outs, TableEntries c (fileScan c contents))
      ∧ ∀ key, newest (outs.map (layer c)) key = first Entry.key tables key := by
  induction h with
  | nil => exact ⟨by simp, by simp, fun _ => rfl⟩
  | @cons entries contents tables outs hout _ ih =>
    have hfooter := hclean contents List.mem_cons_self entries hout.tableEntries hout.bytes_eq
    rcases ih fun o ho => hclean o (List.mem_cons_of_mem _ ho) with ⟨hexact, hscans, hnewest⟩
    refine ⟨?_, ?_, ?_⟩
    . intro l hl
      rw [List.map_cons] at hl
      cases List.mem_cons.mp hl with
      | inl heq =>
        rw [heq]
        exact hout.exact hfooter
      | inr hmem => exact hexact l hmem
    . intro o ho
      cases List.mem_cons.mp ho with
      | inl heq =>
        rw [heq, hout.fileScan_eq hfooter]
        exact hout.tableEntries
      | inr hmem => exact hscans o hmem
    . intro key
      rw [List.map_cons, newest_cons, hout.scan_eq hfooter, hnewest, first_cons]

theorem Deleting.merged {rest : List Contents} {d d' : Disk} (h : Deleting c rest d d')
    (hclean : FootersClean c d') :
    ∃ outs, files d' = outs ++ rest ∧ (∀ contents ∈ outs, TableEntries c (fileScan c contents))
      ∧ Merged Entry.isSet (outs.map (layer c)) (layers c d) := by
  rcases h.files_eq with ⟨outs, tables, hfiles, houts, hfirst⟩
  have hnewest := newest_of_outputs houts fun contents hcontents =>
    hclean contents (by rw [hfiles]; exact List.mem_append_left _ hcontents)
  refine ⟨outs, hfiles, hnewest.2.1, hnewest.1, ?_⟩
  intro key
  rw [hnewest.2.2, hfirst]

namespace Inv

variable {keys : Set String} {spec : Spec} {d d' : Disk} {log log' : Log}

theorem mono {keys' : Set String} (h : Inv c keys spec d log) (hkeys : keys' ⊆ keys) :
    Inv c keys' spec d log := by
  rcases h.wal with ⟨entries, hwritable, hbytes, hspec, hsub⟩
  exact ⟨h.named, h.path_eq, ⟨entries, hwritable, hbytes, fun key hkey => hspec key (hkeys hkey),
    fun key hkey => hsub key (hkeys hkey)⟩, h.stored, h.scans,
    fun key hkey => h.shows key (hkeys hkey)⟩

theorem lookup_eq (h : Inv c keys spec d log) {key : String} (hkey : key ∈ keys) :
    lookup log.memtable (layers c d) key = spec key := by
  rcases h.wal with ⟨entries, -, -, hspec, hmemtable⟩
  unfold lookup
  cases hget : log.memtable.get key with
  | some entry => exact (hspec key hkey entry (hmemtable key hkey entry hget)).symm
  | none => exact (h.shows key hkey hget).found_eq

theorem congr (h : Inv c keys spec d log) (hpath : log'.walFile.path = .wal)
    (hmemtable : log'.memtable = log.memtable) : Inv c keys spec d log' := by
  refine ⟨h.named, hpath, ?_, ?_, h.scans, ?_⟩
  . rw [hmemtable]
    exact h.wal
  . rw [hmemtable]
    exact h.stored
  . rw [hmemtable]
    exact h.shows

theorem truncate (h : Inv c keys spec d log) (hempty : ∀ key, log.memtable.get key = none) :
    Inv c keys spec (d.write .wal .empty) log := by
  refine ⟨h.named, h.path_eq, ⟨[], by simp, rfl, ?_, ?_⟩, h.stored, h.scans, h.shows⟩
  . intro key _ entry hentry
    contradiction
  . intro key _ entry hentry
    rw [hempty] at hentry
    contradiction

theorem append_insert (h : Inv c keys spec d log) {entry : Entry}
    (hentry : Writable c.toCodec entry) {new : Contents}
    (hnew : new.bytes = d.wal.bytes ++ encoded c.toCodec entry)
    (hpath : log'.walFile.path = .wal)
    (hmemtable : log'.memtable = log.memtable.processed c entry) :
    Inv c (insert entry.key keys) (spec.write entry) (d.write .wal new) log' := by
  have hkeys : ∀ key ∈ insert entry.key keys, key ≠ entry.key → key ∈ keys :=
    fun key hmem hne => Or.resolve_left hmem hne
  rcases h.wal with ⟨entries, hwritable, hbytes, hspec, hsub⟩
  refine ⟨h.named, hpath, ⟨entries ++ [entry], ?_, ?_, ?_, ?_⟩, ?_, h.scans, ?_⟩
  . intro e he
    cases List.mem_append.mp he with
    | inl hmem => exact hwritable e hmem
    | inr heq =>
      rw [List.mem_singleton.mp heq]
      exact hentry
  . change new.bytes = _
    rw [hnew, hbytes, encodedAll_append]
    simp
  . intro key hmem e he
    rw [replay_append, SortedMap.get?_insert] at he
    unfold Spec.write
    split at he
    . next heq =>
      cases he
      rw [if_pos heq]
    . next hne =>
      rw [if_neg hne]
      exact hspec key (hkeys key hmem hne) e he
  . intro key hmem e he
    rw [hmemtable, MemTable.get_processed] at he
    rw [replay_append, SortedMap.get?_insert]
    split at he
    . next heq => rw [if_pos heq, he]
    . next hne => rw [if_neg hne, hsub key (hkeys key hmem hne) e he]
  . rw [hmemtable]
    exact h.stored.processed hentry
  . intro key hmem hkey
    rw [hmemtable, MemTable.get_processed] at hkey
    unfold Spec.write
    split at hkey
    . contradiction
    . next hne =>
      rw [if_neg hne]
      exact h.shows key (hkeys key hmem hne) hkey

theorem append (h : Inv c keys spec d log) {entry : Entry} (hentry : Writable c.toCodec entry)
    {new : Contents} (hnew : new.bytes = d.wal.bytes ++ encoded c.toCodec entry)
    (hpath : log'.walFile.path = .wal)
    (hmemtable : log'.memtable = log.memtable.processed c entry) :
    Inv c keys (spec.write entry) (d.write .wal new) log' :=
  (h.append_insert hentry hnew hpath hmemtable).mono (Set.subset_insert _ _)

theorem flushed_fileScan (h : Inv c keys spec d log) {new : Contents}
    (hnew : new.bytes = image c log.memtable.values) (hsmall : log.memtable.len * 10 < 2 ^ 32)
    (hsound : Sound c (d.tick.write (.sstable (nextName d)) new)) :
    files (d.tick.write (.sstable (nextName d)) new) = new :: files d
      ∧ Output c log.memtable.values new ∧ FooterClean c log.memtable.values new.bytes := by
  have hfiles : files (d.tick.write (.sstable (nextName d)) new) = new :: files d :=
    files_write new (h.named.lt_nextName hsound.clock.of_write)
  have hout : Output c log.memtable.values new :=
    ⟨h.stored.tableEntries, by rw [MemTable.length_values]; exact hsmall, hnew⟩
  exact ⟨hfiles, hout, hsound.footers new (by rw [hfiles]; exact List.mem_cons_self) _
    hout.tableEntries hout.bytes_eq⟩

theorem flushed (h : Inv c keys spec d log) {new : Contents}
    (hnew : new.bytes = image c log.memtable.values) (hsmall : log.memtable.len * 10 < 2 ^ 32)
    (hsound : Sound c (d.tick.write (.sstable (nextName d)) new))
    (hpath : log'.walFile.path = .wal) (hmemtable : log'.memtable = .new) :
    Inv c keys spec (d.tick.write (.sstable (nextName d)) new) log' := by
  rcases h.flushed_fileScan hnew hsmall hsound with ⟨hfiles, hout, hclean⟩
  have hscan : ∀ key, (layer c new).scan key = log.memtable.get key := by
    intro key
    rw [hout.scan_eq hclean, ← log.memtable.find?_values]
    rfl
  rcases h.wal with ⟨entries, hwritable, hbytes, hspec, hsub⟩
  refine ⟨h.named.write new, hpath, ⟨entries, hwritable, hbytes, hspec, ?_⟩, ?_, ?_, ?_⟩
  . intro key _ entry hentry
    rw [hmemtable] at hentry
    contradiction
  . rw [hmemtable]
    exact MemTable.stored_new
  . intro contents hcontents
    rw [hfiles] at hcontents
    cases List.mem_cons.mp hcontents with
    | inl heq =>
      rw [heq, hout.fileScan_eq hclean]
      exact hout.tableEntries
    | inr hmem => exact h.scans contents hmem
  . intro key hkey _
    rw [layers, hfiles, List.map_cons]
    cases hget : log.memtable.get key with
    | none => exact (h.shows key hkey hget).push_miss (by rw [hscan, hget])
    | some entry =>
      rw [hspec key hkey entry (hsub key hkey entry hget), visible_eq]
      apply Shows.push_hit
      rw [hout.exact hclean, hscan, hget]

theorem flushLeft (h : Inv c keys spec d log) (hleft : FlushLeft c log.memtable d d')
    (hstrict : Strict c d') : Inv c keys spec d' log := by
  cases hleft with
  | unchanged => exact h
  | ticked => exact ⟨h.named.tick, h.path_eq, h.wal, h.stored, h.scans, h.shows⟩
  | part new hnew =>
    have hfiles : files (d.tick.write (.sstable (nextName d)) new) = new :: files d :=
      files_write new (h.named.lt_nextName hstrict.clock.of_write)
    have honly := hstrict.records new (by rw [hfiles]; exact List.mem_cons_self) _
      h.stored.tableEntries hnew
    have hsub := fileScan_sublist h.stored.tableEntries hnew honly
    refine ⟨h.named.write new, h.path_eq, h.wal, h.stored, ?_, ?_⟩
    . intro contents hcontents
      rw [hfiles] at hcontents
      cases List.mem_cons.mp hcontents with
      | inl heq =>
        rw [heq]
        exact h.stored.tableEntries.sublist hsub
      | inr hmem => exact h.scans contents hmem
    . intro key hmem hkey
      rw [layers, hfiles, List.map_cons]
      apply (h.shows key hmem hkey).push_miss
      -- what the file holds is in the memtable still
      cases hscan : (layer c new).scan key with
      | none => rfl
      | some entry =>
        rcases scan_sublist hsub key hscan with ⟨hmem, heq⟩
        rw [MemTable.mem_values_iff, heq, hkey] at hmem
        contradiction

theorem leftover (h : Inv c keys spec d log) (hleft : Leftover c d d') (hstrict : Strict c d') :
    Inv c keys spec d' log := by
  rcases hleft.files_eq with ⟨outs, hfiles, houts⟩
  have hwal : d'.wal.bytes = d.wal.bytes := by rw [hleft.wal_eq]
  have hsub : ∀ contents ∈ outs, ∃ entries, TableEntries c entries
      ∧ (fileScan c contents).Sublist entries
      ∧ ∀ entry ∈ entries, newest (layers c d) entry.key = some entry := by
    intro contents hcontents
    rcases houts contents hcontents with ⟨entries, hentries, hpart, hnewest⟩
    refine ⟨entries, hentries, ?_, hnewest⟩
    apply fileScan_sublist hentries hpart
    apply hstrict.records contents _ entries hentries hpart
    rw [hfiles]
    exact List.mem_append_left _ hcontents
  refine ⟨hleft.named, h.path_eq, ?_, h.stored, ?_, ?_⟩
  . rw [hwal]
    exact h.wal
  . intro contents hcontents
    rw [hfiles] at hcontents
    cases List.mem_append.mp hcontents with
    | inl hmem =>
      rcases hsub contents hmem with ⟨entries, hentries, hscan, -⟩
      exact hentries.sublist hscan
    | inr hmem => exact h.scans contents hmem
  . intro key hmem hkey
    have hshows := h.shows key hmem hkey
    rw [layers, hfiles, List.map_append]
    -- every new file repeats what is there
    have hrepeat : ∀ l ∈ outs.map (layer c), ∀ entry, l.scan key = some entry →
        newest (layers c d) key = some entry := by
      intro l hl entry hentry
      rw [List.mem_map] at hl
      rcases hl with ⟨contents, hcontents, rfl⟩
      rcases hsub contents hcontents with ⟨entries, -, hscan, hnewest⟩
      rcases scan_sublist hscan key hentry with ⟨hmem, heq⟩
      rw [← heq]
      exact hnewest entry hmem
    exact Shows.append_repeat hshows hrepeat

/--
A merge replaces the files it merged, provided that what is left of them does not need a tombstone
any more.
-/
theorem deleting {rest : List Contents} (h : Inv c keys spec d log) (hdeleting : Deleting c rest d d')
    (hclean : FootersClean c d')
    (hrest : ∀ key ∈ keys, log.memtable.get key = none → spec key = none →
      Shows Entry.isSet (rest.map (layer c)) key none) : Inv c keys spec d' log := by
  rcases hdeleting.merged hclean with ⟨outs, hfiles, houts, hmerged⟩
  have hwal : d'.wal.bytes = d.wal.bytes := by rw [hdeleting.wal_eq]
  refine ⟨hdeleting.named, h.path_eq, ?_, h.stored, ?_, ?_⟩
  . rw [hwal]
    exact h.wal
  . intro contents hcontents
    rw [hfiles] at hcontents
    cases List.mem_append.mp hcontents with
    | inl hmem => exact houts contents hmem
    | inr hmem => exact h.scans contents (hdeleting.suffix.subset hmem)
  . intro key hmem hkey
    rw [layers, hfiles, List.map_append]
    exact hmerged.shows (h.shows key hmem hkey) (hrest key hmem hkey)

theorem lookup_deleting {rest : List Contents} (h : Inv c keys spec d log)
    (hdeleting : Deleting c rest d d') (hclean : FootersClean c d') {key : String} (hkey : key ∈ keys)
    (hnew : log.memtable = .new)
    (hrest : spec key = none → lookup .new (rest.map (layer c)) key = none) :
    lookup .new (layers c d') key = spec key := by
  rcases hdeleting.merged hclean with ⟨outs, hfiles, -, hmerged⟩
  have hshows := h.shows key hkey (by rw [hnew]; rfl)
  rw [layers, hfiles, List.map_append]
  exact hmerged.found_append hshows hrest

end Inv

end Chickadee
