import Chickadee.Lemmas.Compact

/-!
This module contains what a compaction does where the files are ascending and the readings of the clock
go up: the new files come after the old ones and hold the newest entries of all keys but the deleted
ones.
-/

namespace Chickadee

open Faulty Faulty.Io Layers KWay

variable {σ : Type} {T : Disk → Prop} (c : Crates)

structure Output (entries : List Entry) (contents : Contents) : Prop where
  tableEntries : TableEntries c entries
  small : entries.length * 10 < 2 ^ 32
  bytes_eq : contents.bytes = image c entries

-- `d'` is `d` with a new file for each of `tables`, the last one first
structure Grown (tables : List (List Entry)) (d d' : Disk) : Prop where
  wal_eq : d'.wal = d.wal
  named : Named d'
  entries_eq : ∃ new, d'.sstables.entries = d.sstables.entries ++ new
    ∧ List.Forall₂ (Output c) tables (new.reverse.map Prod.snd)

-- `d'` is `d` with new files that repeat a part of what is in the old ones
structure Leftover (d d' : Disk) : Prop where
  wal_eq : d'.wal = d.wal
  named : Named d'
  files_eq : ∃ outs, files d' = outs ++ files d ∧ ∀ contents ∈ outs, ∃ entries,
    TableEntries c entries ∧ contents.bytes <+: image c entries
      ∧ ∀ entry ∈ entries, newest (layers c d) entry.key = some entry

-- `d'` is `d` merged into new files, with only `rest` of the old files still there
structure Deleting (rest : List Contents) (d d' : Disk) : Prop where
  wal_eq : d'.wal = d.wal
  named : Named d'
  suffix : rest <:+ files d
  files_eq : ∃ outs tables, files d' = outs ++ rest ∧ List.Forall₂ (Output c) tables outs
    ∧ ∀ key, first Entry.key tables key = (newest (layers c d) key).filter Entry.isSet

variable {c}

theorem ClockUp.of_write {d : Disk} {path : Path} {contents : Contents}
    (h : ClockUp (d.write path contents)) : ClockUp d := by
  cases path with
  | wal => exact h
  | sstable name => exact h

theorem ClockUp.of_tick {d : Disk} (h : ClockUp d.tick) : ClockUp d :=
  fun i hi => h i (Nat.lt_succ_of_lt hi)

theorem Grown.init {d : Disk} (h : Named d) : Grown c [] d d :=
  ⟨rfl, h, [], by simp, List.Forall₂.nil⟩

theorem Grown.files_eq {tables : List (List Entry)} {d d' : Disk} (h : Grown c tables d d') :
    ∃ outs, files d' = outs ++ files d ∧ List.Forall₂ (Output c) tables outs := by
  rcases h.entries_eq with ⟨new, hnew, houts⟩
  refine ⟨_, ?_, houts⟩
  rw [files, hnew, List.reverse_append, List.map_append]
  rfl

theorem Grown.flush {tables : List (List Entry)} {d d' : Disk} (h : Grown c tables d d')
    {memtable : MemTable} (hstored : memtable.Stored c) {new : Contents}
    (hnew : new.bytes = image c memtable.values) (hsmall : memtable.len * 10 < 2 ^ 32)
    (hclock : ClockUp d'.tick) :
    Grown c (memtable.values :: tables) d (d'.tick.write (.sstable (nextName d')) new) := by
  rcases h.entries_eq with ⟨old, hold, houts⟩
  constructor
  . exact h.wal_eq
  . exact h.named.write new
  . refine ⟨old ++ [(nextName d', new)], ?_, ?_⟩
    . have := SortedMap.entries_insert_of_forall_lt new (h.named.lt_nextName hclock)
      rw [hold, List.append_assoc] at this
      exact this
    . rw [List.reverse_append]
      apply List.Forall₂.cons _ houts
      exact ⟨hstored.tableEntries, by rw [MemTable.length_values]; exact hsmall, hnew⟩

theorem Grown.leftover {tables : List (List Entry)} {d d' d'' : Disk} (h : Grown c tables d d')
    (hnewest : ∀ table ∈ tables, ∀ entry ∈ table, newest (layers c d) entry.key = some entry)
    {memtable : MemTable} (hstored : memtable.Stored c)
    (hmemtable : ∀ entry ∈ memtable.values, newest (layers c d) entry.key = some entry)
    (hleft : FlushLeft c memtable d' d'') (hclock : ClockUp d'') : Leftover c d d'' := by
  rcases h.files_eq with ⟨outs, hfiles, houts⟩
  have hold : ∀ contents ∈ outs, ∃ entries, TableEntries c entries
      ∧ contents.bytes <+: image c entries
      ∧ ∀ entry ∈ entries, newest (layers c d) entry.key = some entry := by
    intro contents hcontents
    rcases List.forall₂_iff_get.mp houts with ⟨hlen, hget⟩
    rcases List.mem_iff_getElem.mp hcontents with ⟨i, hi, rfl⟩
    have hi' : i < tables.length := by omega
    have hout := hget i hi' hi
    refine ⟨tables[i], hout.tableEntries, ?_, hnewest _ (List.getElem_mem _)⟩
    have hbytes := hout.bytes_eq
    simp only [List.get_eq_getElem] at hbytes
    rw [hbytes]
  cases hleft with
  | unchanged => exact ⟨h.wal_eq, h.named, outs, hfiles, hold⟩
  | ticked => exact ⟨h.wal_eq, h.named.tick, outs, hfiles, hold⟩
  | part new hnew =>
    refine ⟨h.wal_eq, h.named.write new, new :: outs, ?_, ?_⟩
    . have := files_write (d := d'.tick) new (h.named.lt_nextName hclock.of_write)
      rw [this, List.cons_append, ← hfiles]
      rfl
    . intro contents hcontents
      cases List.mem_cons.mp hcontents with
      | inl heq =>
        rw [heq]
        exact ⟨_, hstored.tableEntries, hnew, hmemtable⟩
      | inr hmem => exact hold contents hmem

theorem Added.grown {tables : List (List Entry)} {d d' : Disk} (h : Added c d tables d')
    (hnamed : Named d) (hclock : ClockUp d')
    (hwritable : ∀ table ∈ tables, ∀ entry ∈ table, Writable c.toCodec entry) :
    Grown c tables d d' := by
  induction h with
  | refl => exact Grown.init hnamed
  | flush _ _ _ hsmall _ hnew ih =>
    have hclock := hclock.of_write
    have hgrown := ih hclock.of_tick fun table htable =>
      hwritable table (List.mem_cons_of_mem _ htable)
    exact hgrown.flush (hwritable _ List.mem_cons_self) hnew hsmall hclock

section Ascending

variable {d d' : Disk} {tables streams : List (List Entry)} {memtable : MemTable}
variable {seenKeys : List String} {out : List Entry}

theorem first_streamsOf (d : Disk) (key : String) :
    first Entry.key (streamsOf c d) key = newest (layers c d) key := by
  rw [streamsOf, first_tableStreams, layers_eq]

theorem tableEntries_of_mem_streamsOf
    (hscans : ∀ contents ∈ files d, TableEntries c (fileScan c contents)) {s : List Entry}
    (hs : s ∈ streamsOf c d) : TableEntries c s := by
  rcases mem_tableStreams hs with ⟨p, hp, rfl⟩
  exact hscans p.2 (List.mem_map_of_mem hp)

theorem comesUp_streamsOf (hscans : ∀ contents ∈ files d, TableEntries c (fileScan c contents))
    (key : String) : comesUp Entry.key key (streamsOf c d) = newest (layers c d) key := by
  rw [comesUp_eq_first fun s hs => (tableEntries_of_mem_streamsOf hscans hs).ascending,
    first_streamsOf]

theorem newest_of_mem (hscans : ∀ contents ∈ files d, TableEntries c (fileScan c contents))
    (hmerge : Merge Entry.key Entry.isSet (streamsOf c d) streams seenKeys out) :
    ∀ entry ∈ out, newest (layers c d) entry.key = some entry ∧ Writable c.toCodec entry := by
  intro entry hentry
  rw [← comesUp_streamsOf hscans]
  refine ⟨hmerge.comesUp_of_mem hentry, ?_⟩
  rcases (hmerge.of_mem entry hentry).2.2 with ⟨s, hs, hmem⟩
  exact (tableEntries_of_mem_streamsOf hscans hs).writable entry hmem

theorem Begun.leftover {d'' : Disk} (h : Begun c tables memtable d d') (hnamed : Named d)
    (hscans : ∀ contents ∈ files d, TableEntries c (fileScan c contents))
    (hleft : FlushLeft c memtable d' d'') (hclock : ClockUp d'') : Leftover c d d'' := by
  rcases h with ⟨streams, seenKeys, hrolling⟩
  rcases hrolling.merge with ⟨out, hmerge, hchunks⟩
  have hnewest := newest_of_mem hscans hmerge
  have hmem : ∀ table ∈ memtable.values :: tables, ∀ entry ∈ table, entry ∈ out :=
    fun table htable entry hentry => (hchunks.mem_iff entry).mp ⟨table, htable, hentry⟩
  have hclock' : ClockUp d' := by
    cases hleft with
    | unchanged => exact hclock
    | ticked => exact hclock.of_tick
    | part new hnew => exact hclock.of_write.of_tick
  have hgrown := hrolling.added.grown hnamed hclock' fun table htable entry hentry =>
    (hnewest entry (hmem table (List.mem_cons_of_mem _ htable) entry hentry)).2
  apply hgrown.leftover _ _ _ hleft hclock
  . intro table htable entry hentry
    exact (hnewest entry (hmem table (List.mem_cons_of_mem _ htable) entry hentry)).1
  . intro entry hentry
    exact (hnewest entry (hmem _ List.mem_cons_self entry hentry)).2
  . intro entry hentry
    exact (hnewest entry (hmem _ List.mem_cons_self entry hentry)).1

theorem MergedInto.first_eq (h : MergedInto c tables d d')
    (hscans : ∀ contents ∈ files d, TableEntries c (fileScan c contents)) (key : String) :
    first Entry.key tables key = (newest (layers c d) key).filter Entry.isSet := by
  rcases h.emitted with ⟨out, hmem, hnodup, -, hfind⟩
  rw [first_eq_find _ hmem hnodup, hfind, comesUp_streamsOf hscans]

theorem MergedInto.grown (h : MergedInto c tables d d') (hnamed : Named d) (hclock : ClockUp d')
    (hscans : ∀ contents ∈ files d, TableEntries c (fileScan c contents)) :
    Grown c tables d d' := by
  rcases h with ⟨streams, seenKeys, hrolling, -⟩
  rcases hrolling.merge with ⟨out, hmerge, hchunks⟩
  apply hrolling.added.grown hnamed hclock
  intro table htable entry hentry
  have hmem := (hchunks.mem_iff entry).mp ⟨table, List.mem_cons_of_mem _ htable, hentry⟩
  exact (newest_of_mem hscans hmerge entry hmem).2

theorem remove_entries {d : Disk} {before after : List (String × Contents)} {p : String × Contents}
    (h : d.sstables.entries = before ++ p :: after) :
    (d.remove p.1).sstables.entries = before ++ after := by
  have hsorted := d.sstables.sorted
  rw [h, List.pairwise_append, List.pairwise_cons] at hsorted
  rcases hsorted with ⟨-, ⟨hafter, -⟩, hbefore⟩
  change d.sstables.entries.filter (fun q => q.1 ≠ p.1) = _
  rw [h, List.filter_append, List.filter_cons_of_neg (by simp)]
  congr 1
  . rw [List.filter_eq_self]
    intro q hq
    exact decide_eq_true (ne_of_lt (hbefore q hq p List.mem_cons_self))
  . rw [List.filter_eq_self]
    intro q hq
    exact decide_eq_true (ne_of_gt (hafter q hq))

theorem removeAll_wal (names : List String) (d : Disk) : (removeAll names d).wal = d.wal := by
  induction names generalizing d with
  | nil => rfl
  | cons name names ih => exact ih (d.remove name)

theorem Named.removeAll {d : Disk} (h : Named d) (names : List String) :
    Named (removeAll names d) := by
  induction names generalizing d with
  | nil => exact h
  | cons name names ih => exact ih (h.remove name)

theorem clockUp_removeAll {names : List String} {d : Disk} :
    ClockUp (removeAll names d) ↔ ClockUp d := by
  induction names generalizing d with
  | nil => exact Iff.rfl
  | cons name names ih => exact ih (d := d.remove name)

theorem removeAll_entries {new ps : List (String × Contents)} {d : Disk} {done : List String}
    (h : d.sstables.entries = ps ++ new) (hdone : done <+: (ps.map Prod.fst).reverse) :
    ∃ qs, qs <+: ps ∧ (removeAll done d).sstables.entries = qs ++ new
      ∧ (done = (ps.map Prod.fst).reverse → qs = []) := by
  induction ps using List.reverseRecOn generalizing d done with
  | nil =>
    have hnil : done = [] := List.prefix_nil.mp hdone
    rw [hnil]
    exact ⟨[], List.prefix_refl _, h, fun _ => rfl⟩
  | append_singleton ps p ih =>
    rw [List.map_append, List.reverse_append, List.map_singleton, List.reverse_singleton,
      List.singleton_append] at hdone ⊢
    cases done with
    | nil => exact ⟨_, List.prefix_refl _, h, by simp⟩
    | cons name done =>
      rw [List.cons_prefix_cons] at hdone
      rcases hdone with ⟨rfl, hdone⟩
      rw [List.append_assoc, List.singleton_append] at h
      rcases ih (remove_entries h) hdone with ⟨qs, hqs, hentries, hall⟩
      refine ⟨qs, hqs.trans (List.prefix_append _ _), hentries, ?_⟩
      intro heq
      exact hall (List.cons_inj_right _ |>.mp heq)

theorem removeAll_entries_of_append {new ps : List (String × Contents)} {d : Disk}
    {done : List String} {name : String} (h : d.sstables.entries = ps ++ new)
    (hdone : done ++ [name] <+: (ps.map Prod.fst).reverse) :
    (removeAll done d).sstables.entries = (ps.filter fun p => p.1 ≤ name) ++ new := by
  induction ps using List.reverseRecOn generalizing d done with
  | nil => simp at hdone
  | append_singleton ps p ih =>
    have hlt : ∀ q ∈ ps, q.1 < p.1 := by
      have hsorted := d.sstables.sorted
      rw [h, List.append_assoc, List.pairwise_append] at hsorted
      intro q hq
      exact hsorted.2.2 q hq p List.mem_cons_self
    rw [List.map_append, List.reverse_append, List.map_singleton, List.reverse_singleton,
      List.singleton_append] at hdone
    cases done with
    | nil =>
      rw [List.nil_append, List.cons_prefix_cons] at hdone
      rcases hdone with ⟨rfl, -⟩
      rw [List.filter_eq_self.mpr]
      . exact h
      . intro q hq
        rw [decide_eq_true_eq]
        cases List.mem_append.mp hq with
        | inl hmem => exact le_of_lt (hlt q hmem)
        | inr heq => rw [List.mem_singleton.mp heq]
    | cons first done =>
      rw [List.cons_append, List.cons_prefix_cons] at hdone
      rcases hdone with ⟨rfl, hdone⟩
      have hname : name < p.1 := by
        have hmem : name ∈ (ps.map Prod.fst).reverse :=
          hdone.subset (List.mem_append_right _ (List.mem_singleton_self _))
        rw [List.mem_reverse, List.mem_map] at hmem
        rcases hmem with ⟨q, hq, rfl⟩
        exact hlt q hq
      rw [List.append_assoc, List.singleton_append] at h
      rw [List.filter_append, List.filter_cons_of_neg (by simpa using hname), List.filter_nil,
        List.append_nil]
      exact ih (d := d.remove p.1) (remove_entries h) hdone

theorem Deleting.of_entries {d d'' : Disk} {tables : List (List Entry)}
    {new qs : List (String × Contents)}
    (houts : List.Forall₂ (Output c) tables (new.reverse.map Prod.snd))
    (hfirst : ∀ key, first Entry.key tables key = (newest (layers c d) key).filter Entry.isSet)
    (hwal : d''.wal = d.wal) (hnamed : Named d'') (hqs : qs <+: d.sstables.entries)
    (hentries : d''.sstables.entries = qs ++ new) :
    Deleting c (qs.reverse.map Prod.snd) d d'' := by
  refine ⟨hwal, hnamed, ?_, _, tables, ?_, houts, hfirst⟩
  . unfold files
    exact (List.reverse_suffix.mpr hqs).map _
  . rw [files, hentries, List.reverse_append, List.map_append]

theorem MergedInto.deleting (h : MergedInto c tables d d') (hnamed : Named d)
    (hclock : ClockUp d') (hscans : ∀ contents ∈ files d, TableEntries c (fileScan c contents)) :
    Deleting c [] d (removeAll d.sstables.keys.reverse d') := by
  have hgrown := h.grown hnamed hclock hscans
  rcases hgrown.entries_eq with ⟨new, hentries, houts⟩
  rcases removeAll_entries hentries (List.prefix_refl _) with ⟨qs, hqs, hentries', hall⟩
  rw [hall rfl] at hqs hentries'
  apply Deleting.of_entries houts (h.first_eq hscans) _ (hgrown.named.removeAll _) hqs hentries'
  rw [removeAll_wal, hgrown.wal_eq]

theorem MergedInto.deleting_older {done : List String} {name : String}
    (h : MergedInto c tables d d') (hnamed : Named d) (hclock : ClockUp d')
    (hscans : ∀ contents ∈ files d, TableEntries c (fileScan c contents))
    (hdone : done ++ [name] <+: d.sstables.keys.reverse) :
    Deleting c (older d name) d (removeAll done d') := by
  have hgrown := h.grown hnamed hclock hscans
  rcases hgrown.entries_eq with ⟨new, hentries, houts⟩
  have hleft := removeAll_entries_of_append hentries hdone
  rcases removeAll_entries hentries ((List.prefix_append _ _).trans hdone) with
    ⟨qs, hqs, hentries', -⟩
  have heq : qs = d.sstables.entries.filter fun p => p.1 ≤ name :=
    List.append_cancel_right (hentries'.symm.trans hleft)
  rw [heq] at hqs
  apply Deleting.of_entries houts (h.first_eq hscans) _ (hgrown.named.removeAll done) hqs hleft
  rw [removeAll_wal, hgrown.wal_eq]

end Ascending

theorem namesFresh_of_clockUp {d : Disk} (hT : ∀ d, T d → ClockUp d) (hnamed : Named d) :
    NamesFresh c T d := by
  intro tables d' new hadded hT' hmem
  have hlt := (hadded.named hnamed).lt_nextName (hT _ hT').of_write _ hmem
  exact lt_irrefl _ hlt

/--
A compaction replaces the files by a merge of them. If it fails, it has added files that repeat what
is there, or it has done the merge and has got to the file `name` in removing those that were there.
-/
theorem wp_compact {Q : Unit → Machine Call Disk σ → Prop}
    {E : Failure Error → Machine Call Disk σ → Prop} {m : Machine Call Disk σ}
    (hT : ∀ d, T d → ClockUp d) (hnamed : Named m.disk)
    (hscans : ∀ contents ∈ files m.disk, TableEntries c (fileScan c contents))
    (hok : ∀ m', Extends m m' → Deleting c [] m.disk m'.disk → Q () m')
    (hleft : ∀ e m', Extends m m' → Leftover c m.disk m'.disk →
      (e = .fault ∨ e = .raised .fileTooLarge) → E e m')
    (hstopped : ∀ m' name, Extends m m' → name ∈ m.disk.sstables.keys →
      Deleting c (older m.disk name) m.disk m'.disk → m'.FailedAt (.removeFile name) →
      E .fault m') :
    wp T (compact c) Q E m := by
  apply wp_conclude
  apply wp_compact_of_serializable
  . intro s hs entry hentry
    exact ((tableEntries_of_mem_streamsOf hscans hs).writable entry hentry).serializable
  . exact namesFresh_of_clockUp hT hnamed
  . intro m' d' tables hm' hmerged hdisk hm''
    have hclock := hT _ hm''.1
    rw [hdisk, clockUp_removeAll] at hclock
    have hdeleting := hmerged.deleting hnamed hclock hscans
    rw [← hdisk] at hdeleting
    exact hok m' hm' hdeleting
  . intro e m' d' tables memtable hm' hbegun hpart he hm''
    exact hleft e m' hm' (hbegun.leftover hnamed hscans hpart (hT _ hm''.1)) he
  . intro m' d' tables done name hm' hmerged hdone hdisk hfailed hm''
    have hclock := hT _ hm''.1
    rw [hdisk, clockUp_removeAll] at hclock
    have hdeleting := hmerged.deleting_older hnamed hclock hscans hdone
    rw [← hdisk] at hdeleting
    have hname := hdone.subset (List.mem_append_right _ (List.mem_singleton_self _))
    exact hstopped m' name hm' (List.mem_reverse.mp hname) hdeleting hfailed

end Chickadee
