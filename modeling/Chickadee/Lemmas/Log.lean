import Chickadee.Lemmas.Store

/-!
This module contains what the operations of the log do to the invariant of the store.
-/

namespace Chickadee

open Faulty Faulty.Io Layers

variable {σ : Type} {T : Disk → Prop} {c : Crates}
variable {keys : Set String} {spec : Spec} {m : Machine Call Disk Log}

/--
An entry is appended to the WAL and processed. A failure leaves a part of its record behind, or all
of it when it comes after the append.
-/
theorem wp_write {entry : Entry} (hentry : Writable c.toCodec entry)
    (hpath : m.self.walFile.path = .wal) (hstored : m.self.memtable.Stored c)
    {Q : Unit → Machine Call Disk Log → Prop} {E : Failure Error → Machine Call Disk Log → Prop}
    (hok : ∀ m' new, Extends m m' → new.bytes = m.disk.wal.bytes ++ encoded c.toCodec entry →
      m'.disk = m.disk.write .wal new → m'.self.walFile.path = .wal →
      m'.self.memtable = m.self.memtable.processed c entry →
      m'.self.flushCount = m.self.flushCount → Q () m')
    (hfail : ∀ e m' new b, Extends m m' → new.bytes = m.disk.wal.bytes ++ b →
      b <+: encoded c.toCodec entry → m'.disk = m.disk.write .wal new →
      m'.self.walFile.path = .wal → m'.self.memtable = m.self.memtable →
      m'.self.flushCount = m.self.flushCount → (e = .fault ∨ e = .raised .fileTooLarge) → E e m') :
    wp T (Log.write c entry) Q E m := by
  unfold Log.write Log.zoomWal Log.zoomMemtable
  apply wp_bind
  apply wp_zoom
  have hread : (m.withSelf m.self.walFile).disk.read (m.withSelf m.self.walFile).self.path
      = m.disk.wal := by
    rw [Machine.withSelf_disk, Machine.withSelf_self, hpath]
    rfl
  apply wp_headerWrite hentry.serializable hread
  . rw [Machine.withSelf_disk, Machine.withSelf_self, hpath]
    rfl
  . intro m1 new hm1 hnew hdisk1 hself1
    rw [Machine.withSelf_disk, Machine.withSelf_self, hpath] at hdisk1
    rw [Machine.withSelf_self, hpath] at hself1
    have hm1 := hm1.of_withSelf
    apply wp_bind
    apply wp_zoom
    apply wp_syncAll
    . intro m2 hm2 hself2
      have hm2 := hm2.of_withSelf.of_withSelf
      have hdisk2 : m2.disk = m.disk.write .wal new := by rw [hm2.disk_eq, hdisk1]
      apply wp_bind
      apply wp_zoom
      apply wp_of_run (MemTable.run_process hstored.serializable hentry.serializable)
      apply wp_pure
      apply hok _ new _ hnew hdisk2
      . rw [Machine.withSelf_self]
        exact congrArg File.path (hself2.trans hself1)
      . rfl
      . rfl
      . exact (hm1.trans hm2.later).of_withSelf.withSelf _
    . intro m2 hm2 hself2
      have hm2 := hm2.of_withSelf.of_withSelf
      apply hfail .fault _ new _ _ hnew (List.prefix_refl _) _ _ _ _ (Or.inl rfl)
      . exact (hm1.trans hm2.later).of_withSelf.withSelf _
      . exact hm2.disk_eq.trans hdisk1
      . rw [Machine.withSelf_self]
        exact congrArg File.path (hself2.trans hself1)
      . rfl
      . rfl
  . intro e m' new b hm' hnew hb _ hdisk hpath' he
    rw [Machine.withSelf_disk, Machine.withSelf_self, hpath] at hdisk
    rw [Machine.withSelf_self, hpath] at hpath'
    exact hfail e _ new b (hm'.of_withSelf.withSelf _) hnew hb hdisk hpath' rfl rfl he

theorem run_write {entry : Entry} (hentry : Writable c.toCodec entry)
    (hpath : m.self.walFile.path = .wal) (hstored : m.self.memtable.Stored c)
    (hspace : m.disk.wal.length + (encoded c.toCodec entry).length ≤ maxFileLen)
    (hfaults : ∀ j < 3, m.faults (m.history.length + j) = none) :
    ∃ m', (Log.write c entry).run m = .ok () m' := by
  have hread : (m.withSelf m.self.walFile).disk.read (m.withSelf m.self.walFile).self.path
      = m.disk.wal := by
    rw [Machine.withSelf_disk, Machine.withSelf_self, hpath]
    rfl
  rw [← hread] at hspace
  rcases run_headerWrite hentry.serializable hspace fun j hj => hfaults j (Nat.lt_succ_of_lt hj) with
    ⟨m1, hrun1, hfaults1, hlen1⟩
  have hsync : syncAll.run m1 = .ok () (m1.record (.syncAll m1.self.path) m1.disk m1.self) := by
    unfold syncAll
    rw [run_bind_of_ok (run_getSelf m1)]
    apply run_readCall_of_ok _ rfl
    rw [hfaults1, hlen1]
    exact hfaults 2 (by decide)
  unfold Log.write Log.zoomWal Log.zoomMemtable
  rw [run_bind_of_ok (run_zoom_of_ok hrun1), run_bind_of_ok (run_zoom_of_ok hsync)]
  have hprocess := @MemTable.run_process c
    ((m1.record (.syncAll m1.self.path) m1.disk m1.self).withSelf m.self.memtable) entry
    hstored.serializable hentry.serializable
  rw [run_bind_of_ok (run_zoom_of_ok hprocess)]
  exact ⟨_, rfl⟩

/--
The memtable is written to a new file, then it is cleared and the WAL is truncated. A failure leaves a
part of the file behind, or it comes after the memtable is cleared.
-/
theorem wp_flushTables (hpath : m.self.walFile.path = .wal)
    (hholds : m.self.memtable.Holds (Serializable c.toCodec))
    {Q : Unit → Machine Call Disk Log → Prop} {E : Failure Error → Machine Call Disk Log → Prop}
    (hok : ∀ m' d', Extends m m' → FlushDone c m.self.memtable m.disk d' →
      m'.disk = d'.write .wal .empty → m'.self.walFile.path = .wal → m'.self.memtable = .new →
      m'.self.flushCount = saturatingAdd m.self.flushCount 1 → Q () m')
    (hleft : ∀ e m', Extends m m' → FlushLeft c m.self.memtable m.disk m'.disk →
      m'.self.walFile.path = .wal → m'.self.memtable = m.self.memtable →
      (e = .fault ∨ e = .raised .fileTooLarge ∨ 2 ^ 32 ≤ m.self.memtable.len * 10) → E e m')
    (hcleared : ∀ m' d', Extends m m' → FlushDone c m.self.memtable m.disk d' →
      (m'.disk = d' ∨ m'.disk = d'.write .wal .empty) → m'.self.walFile.path = .wal →
      m'.self.memtable = .new → E .fault m') :
    wp T (Log.flushTables c) Q E m := by
  have htruncate : ∀ (m1 : Machine Call Disk Log), Extends m m1 →
      FlushDone c m.self.memtable m.disk m1.disk → m1.self.walFile.path = .wal →
      m1.self.memtable = .new → m1.self.flushCount = m.self.flushCount → wp T (do
        Log.zoomWal (setLen 0)
        Log.zoomWal (seek (.start 0))
        let self ← getSelf
        setSelf { self with flushCount := saturatingAdd self.flushCount 1 }) Q E m1 := by
    intro m1 hm1 hdone1 hpath1 hnew1 hcount1
    unfold Log.zoomWal
    apply wp_bind
    apply wp_zoom
    apply wp_setLen_zero
    . intro m2 hm2 hdisk2 hself2
      rw [Machine.withSelf_disk, Machine.withSelf_self, hpath1] at hdisk2
      rw [Machine.withSelf_self] at hself2
      have hm2 := hm1.trans hm2.of_withSelf
      apply wp_bind
      apply wp_zoom
      apply wp_seek (Reading.seek_start 0)
      . intro m3 hm3 hself3
        have hm3 := hm3.of_withSelf.of_withSelf
        have hpath3 : m3.self.path = .wal := by
          rw [hself3, Machine.withSelf_self, Machine.withSelf_self, hself2, hpath1]
        apply wp_bind
        apply wp_getSelf
        apply wp_setSelf
        refine hok _ m1.disk ?_ hdone1 ?_ hpath3 hnew1 ?_
        . exact ((hm2.trans hm3.later).withSelf _).withSelf _
        . rw [Machine.withSelf_disk, Machine.withSelf_disk, hm3.disk_eq, hdisk2]
        . rw [← hcount1]
          rfl
      . intro m3 hm3 hpath3
        have hm3 := hm3.of_withSelf.of_withSelf
        refine hcleared _ m1.disk ((hm2.trans hm3.later).withSelf _) hdone1 (Or.inr ?_) ?_ hnew1
        . rw [Machine.withSelf_disk, hm3.disk_eq, hdisk2]
        . rw [Machine.withSelf_self, hpath3, Machine.withSelf_self, Machine.withSelf_self, hself2,
            hpath1]
    . intro m2 hm2 hself2
      have hm2 := hm2.of_withSelf
      refine hcleared _ m1.disk ((hm1.trans hm2.later).withSelf _) hdone1 (Or.inl ?_) ?_ hnew1
      . rw [Machine.withSelf_disk, hm2.disk_eq]
      . rw [Machine.withSelf_self, hself2, Machine.withSelf_self, hpath1]
  unfold Log.flushTables
  apply wp_bind
  unfold Log.zoomMemtable
  apply wp_zoom
  apply wp_flushTo hholds
  . intro hempty
    apply htruncate _ ((Extends.refl m).withSelf _) (FlushDone.empty hempty) hpath
    . exact MemTable.eq_new_of_isEmpty hempty
    . rfl
  . intro m1 new hm1 hnonempty hnew hsmall hdisk1 hself1
    apply htruncate (m1.withSelf { m.self with memtable := m1.self })
      (hm1.of_withSelf.withSelf _) _ hpath hself1
    . rfl
    . rw [Machine.withSelf_disk, hdisk1]
      exact FlushDone.written new hnonempty hnew hsmall
  . intro e m1 hm1 hleft1 hself1 he
    exact hleft e _ (hm1.of_withSelf.withSelf _) hleft1 hpath hself1 he

-- the files of `d'` are files of `d` or hold the memtable
def FilesFrom (c : Crates) (memtable : MemTable) (d d' : Disk) : Prop :=
  ∀ contents ∈ files d', contents ∈ files d ∨ fileScan c contents = memtable.values

-- what is older than a file of `d'` was there in `d`, unless the file is the newest one
def GrownFrom (d d' : Disk) : Prop :=
  ∀ name ∈ d'.sstables.keys,
    older d' name = files d' ∨ name ∈ d.sstables.keys ∧ older d' name = older d name

theorem FlushDone.grownFrom {memtable : MemTable} {d d' : Disk}
    (h : FlushDone c memtable d d') (hnamed : Named d) (hclock : ClockUp d') : GrownFrom d d' := by
  cases h with
  | empty _ => exact fun name hname => Or.inr ⟨hname, rfl⟩
  | written new _ _ _ =>
    have hlt := hnamed.lt_nextName hclock.of_write
    intro name hname
    cases (SortedMap.mem_keys_insert _ _ _ _).mp hname with
    | inl heq =>
      rw [heq, older_write (d := d.tick) new hlt, files_write (d := d.tick) new hlt]
      exact Or.inl rfl
    | inr hmem => exact Or.inr ⟨hmem, older_write_of_lt (d := d.tick) new hlt (hlt name hmem)⟩

theorem Inv.flushDone {d d' : Disk} {log log' : Log} (h : Inv c keys spec d log)
    (hdone : FlushDone c log.memtable d d') (hsound : Sound c d')
    (hpath : log'.walFile.path = .wal) (hmemtable : log'.memtable = .new) :
    Inv c keys spec d' log' ∧ FilesFrom c log.memtable d d' := by
  cases hdone with
  | empty hempty =>
    constructor
    . apply h.congr hpath
      rw [hmemtable, MemTable.eq_new_of_isEmpty hempty]
    . intro contents hcontents
      exact Or.inl hcontents
  | written new _ hnew hsmall =>
    refine ⟨h.flushed hnew hsmall hsound hpath hmemtable, ?_⟩
    rcases h.flushed_fileScan hnew hsmall hsound with ⟨hfiles, hout, hclean⟩
    intro contents hcontents
    rw [hfiles] at hcontents
    cases List.mem_cons.mp hcontents with
    | inl heq =>
      rw [heq]
      exact Or.inr (hout.fileScan_eq hclean)
    | inr hmem => exact Or.inl hmem

/--
A flush changes nothing, and it changes nothing if it fails.
-/
theorem Inv.wp_flushTables (h : Inv c keys spec m.disk m.self) (hT : ∀ d, T d → Sound c d)
    {Q : Unit → Machine Call Disk Log → Prop} {E : Failure Error → Machine Call Disk Log → Prop}
    (hok : ∀ m', Extends m m' → Inv c keys spec m'.disk m'.self → m'.self.memtable = .new →
      m'.disk.wal = .empty → FilesFrom c m.self.memtable m.disk m'.disk →
      GrownFrom m.disk m'.disk → Q () m')
    (hfail : ∀ e m', Extends m m' → (Strict c m'.disk → Inv c keys spec m'.disk m'.self) →
      (e = .fault ∨ e = .raised .fileTooLarge ∨ 2 ^ 32 ≤ m.self.memtable.len * 10) → E e m') :
    wp T (Log.flushTables c) Q E m := by
  -- the WAL has no part in what is sound
  have hwrite : ∀ {d : Disk} {wal : Contents}, Sound c (d.write .wal wal) → Sound c d :=
    fun hsound => ⟨hsound.clock, hsound.footers⟩
  apply wp_conclude
  apply Chickadee.wp_flushTables h.path_eq h.stored.serializable
  . intro m' d' hm' hdone hdisk hpath hnew hcount hm''
    have hsound := hT _ hm''.1
    rw [hdisk] at hsound
    rcases h.flushDone hdone (hwrite hsound) hpath hnew with ⟨hinv, hfiles⟩
    have hgrown := hdone.grownFrom h.named (hwrite hsound).clock
    apply hok m' hm' _ hnew
    . rw [hdisk]
      rfl
    . rw [hdisk]
      exact hfiles
    . rw [hdisk]
      exact hgrown
    . rw [hdisk]
      exact hinv.truncate fun key => by rw [hnew]; rfl
  . intro e m' hm' hleft hpath hmemtable he _
    apply hfail e m' hm' _ he
    intro hstrict
    exact (h.flushLeft hleft hstrict).congr hpath hmemtable
  . intro m' d' hm' hdone hdisk hpath hnew _
    apply hfail .fault m' hm' _ (Or.inl rfl)
    intro hstrict
    have hsound := hstrict.sound
    cases hdisk with
    | inl heq =>
      rw [heq] at hsound ⊢
      exact (h.flushDone hdone hsound hpath hnew).1
    | inr heq =>
      rw [heq] at hsound ⊢
      have hinv := (h.flushDone hdone (hwrite hsound) hpath hnew).1
      exact hinv.truncate fun key => by rw [hnew]; rfl

-- a tombstone that the compaction drops has nothing left to hide
def NoneHidden (c : Crates) (keys : Set String) (d : Disk) (log : Log) : Prop :=
  ∀ key ∈ keys, log.memtable.get key = none → Buried Entry.isSet (layers c d) key

theorem NoneHidden.shows {d : Disk} {log : Log} (h : NoneHidden c keys d log)
    (hinv : Inv c keys spec d log) {rest : List Contents} (hrest : rest ⊆ files d) :
    ∀ key ∈ keys, log.memtable.get key = none → spec key = none →
      Shows Entry.isSet (rest.map (layer c)) key none := by
  intro key hkey hget hnone
  have hshows := hinv.shows key hkey hget
  rw [hnone] at hshows
  exact (h key hkey hget).shows hshows (List.map_subset _ hrest)

/--
A compaction changes nothing. If it fails, it changes nothing either, provided that no tombstone
that it dropped is needed any more.
-/
theorem Inv.wp_compact {m : Machine Call Disk σ} {log : Log} (h : Inv c keys spec m.disk log)
    (hT : ∀ d, T d → Sound c d) {Q : Unit → Machine Call Disk σ → Prop}
    {E : Failure Error → Machine Call Disk σ → Prop}
    (hok : ∀ m', Extends m m' → m'.disk.wal = m.disk.wal → Inv c keys spec m'.disk log → Q () m')
    (hfail : ∀ e m', Extends m m' → m'.disk.wal = m.disk.wal →
      (Strict c m'.disk → NoneHidden c keys m.disk log → Inv c keys spec m'.disk log) →
      (e = .fault ∨ e = .raised .fileTooLarge) → E e m') :
    wp T (compact c) Q E m := by
  apply wp_conclude
  apply Chickadee.wp_compact (fun d hd => (hT d hd).clock) h.named h.scans
  . intro m' hm' hdeleting hm''
    apply hok m' hm' hdeleting.wal_eq
    exact h.deleting hdeleting (hT _ hm''.1).footers fun _ _ _ _ => Shows.nil
  . intro e m' hm' hleft he _
    apply hfail e m' hm' hleft.wal_eq _ he
    intro hstrict _
    exact h.leftover hleft hstrict
  . intro m' name hm' _ hdeleting _ hm''
    apply hfail .fault m' hm' hdeleting.wal_eq _ (Or.inl rfl)
    intro _ hhidden
    exact h.deleting hdeleting (hT _ hm''.1).footers (hhidden.shows h hdeleting.suffix.subset)

def NoOldSet (c : Crates) (keys : Set String) (spec : Spec) (d : Disk) : Prop :=
  ∀ key ∈ keys, spec key = none → ∀ contents ∈ files d, ∀ entry ∈ fileScan c contents,
    entry.key = key → entry.isSet = false

theorem NoOldSet.flush {d d' : Disk} {log : Log} (h : NoOldSet c keys spec d)
    (hinv : Inv c keys spec d log) (hfiles : FilesFrom c log.memtable d d') :
    NoOldSet c keys spec d' := by
  intro key hkey hnone contents hcontents entry hentry heq
  cases hfiles contents hcontents with
  | inl hmem => exact h key hkey hnone contents hmem entry hentry heq
  | inr hscan =>
    -- an entry of the memtable, which shows that the key is deleted
    rw [hscan, MemTable.mem_values_iff, heq] at hentry
    rcases hinv.wal with ⟨entries, -, -, hspec, hsub⟩
    have := hspec key hkey entry (hsub key hkey entry hentry)
    rw [hnone] at this
    cases entry with
    | set _ _ => contradiction
    | delete _ => rfl

theorem NoOldSet.noneHidden {d : Disk} {log : Log} (h : NoOldSet c keys spec d)
    (hinv : Inv c keys spec d log) : NoneHidden c keys d log := by
  intro key hkey hget entry hnewest hdead l hl entry' hentry'
  have hnone : spec key = none := by
    rw [← (hinv.shows key hkey hget).newest_eq, hnewest, Option.filter_some_neg (by simp [hdead])]
  rw [layers, List.mem_map] at hl
  rcases hl with ⟨contents, hcontents, rfl⟩
  exact h key hkey hnone contents hcontents entry' (mem_of_scan hentry').1 (mem_of_scan hentry').2

-- a flush has led to the disk `d`, and its compaction has stopped at the removal of the file `name`
structure Stopped (c : Crates) (keys : Set String) (spec : Spec) (m m' : Machine Call Disk Log)
    (d : Disk) (name : String) : Prop where
  inv : Inv c keys spec d m'.self
  memtable_eq : m'.self.memtable = .new
  wal_eq : d.wal = .empty
  filesFrom : FilesFrom c m.self.memtable m.disk d
  grownFrom : GrownFrom m.disk d
  mem : name ∈ d.sstables.keys
  deleting : Deleting c (older d name) d m'.disk
  footers : FootersClean c m'.disk
  failed : m'.FailedAt (.removeFile name)

/--
A flush changes nothing, and neither does one that fails, unless it stops while its compaction removes
the files.
-/
theorem Inv.wp_flush_of_stopped (h : Inv c keys spec m.disk m.self) (hT : ∀ d, T d → Sound c d)
    {Q : Unit → Machine Call Disk Log → Prop} {E : Failure Error → Machine Call Disk Log → Prop}
    (hok : ∀ m', Extends m m' → Inv c keys spec m'.disk m'.self → Q () m')
    (hfail : ∀ e m', Extends m m' → (Strict c m'.disk → Inv c keys spec m'.disk m'.self) →
      (e = .fault ∨ e = .raised .fileTooLarge ∨ 2 ^ 32 ≤ m.self.memtable.len * 10) → E e m')
    (hstopped : ∀ m' d name, Extends m m' → Stopped c keys spec m m' d name → E .fault m') :
    wp T (Log.flush c) Q E m := by
  unfold Log.flush
  apply wp_bind
  apply h.wp_flushTables hT
  . intro m1 hm1 hinv1 hnew1 hwal1 hfiles1 hgrown1
    apply wp_bind
    apply wp_getSelf
    split
    . apply wp_selfless selfless_compact
      apply wp_conclude
      apply Chickadee.wp_compact (fun d hd => (hT d hd).clock) hinv1.named hinv1.scans
      . intro m' hm' hdeleting hm'' hself'
        apply hok m' (hm1.trans hm')
        rw [hself']
        exact hinv1.deleting hdeleting (hT _ hm''.1).footers fun _ _ _ _ => Shows.nil
      . intro e m' hm' hleft he _ hself'
        apply hfail e m' (hm1.trans hm') _ (he.imp id Or.inl)
        intro hstrict
        rw [hself']
        exact hinv1.leftover hleft hstrict
      . intro m' name hm' hname hdeleting hfailed hm'' hself'
        apply hstopped m' m1.disk name (hm1.trans hm')
        refine ⟨?_, ?_, hwal1, hfiles1, hgrown1, hname, hdeleting, (hT _ hm''.1).footers, hfailed⟩
        . rw [hself']
          exact hinv1
        . rw [hself']
          exact hnew1
    . apply wp_pure
      exact hok m1 hm1 hinv1
  . intro e m' hm' hinv' he
    exact hfail e m' hm' hinv' he

theorem Inv.wp_flush (h : Inv c keys spec m.disk m.self) (hT : ∀ d, T d → Sound c d)
    {Q : Unit → Machine Call Disk Log → Prop} {E : Failure Error → Machine Call Disk Log → Prop}
    (hok : ∀ m', Extends m m' → Inv c keys spec m'.disk m'.self → Q () m')
    (hfail : ∀ e m', Extends m m' →
      (Strict c m'.disk → NoOldSet c keys spec m.disk → Inv c keys spec m'.disk m'.self) →
      (e = .fault ∨ e = .raised .fileTooLarge ∨ 2 ^ 32 ≤ m.self.memtable.len * 10) → E e m') :
    wp T (Log.flush c) Q E m := by
  apply h.wp_flush_of_stopped hT hok
  . intro e m' hm' hinv' he
    exact hfail e m' hm' (fun hstrict _ => hinv' hstrict) he
  . intro m' d name hm' hstopped
    apply hfail .fault m' hm' _ (Or.inl rfl)
    intro _ hold
    have hhidden := (hold.flush h hstopped.filesFrom).noneHidden hstopped.inv
    apply hstopped.inv.deleting hstopped.deleting hstopped.footers
    exact hhidden.shows hstopped.inv hstopped.deleting.suffix.subset

theorem Inv.wp_maybeFlush_of_stopped (h : Inv c keys spec m.disk m.self)
    (hT : ∀ d, T d → Sound c d)
    {Q : Unit → Machine Call Disk Log → Prop} {E : Failure Error → Machine Call Disk Log → Prop}
    (hok : ∀ m', Extends m m' → Inv c keys spec m'.disk m'.self → Q () m')
    (hfail : ∀ e m', Extends m m' → (Strict c m'.disk → Inv c keys spec m'.disk m'.self) →
      (e = .fault ∨ e = .raised .fileTooLarge ∨ 2 ^ 32 ≤ m.self.memtable.len * 10) → E e m')
    (hstopped : ∀ m' d name, Extends m m' → Stopped c keys spec m m' d name → E .fault m') :
    wp T (Log.maybeFlush c) Q E m := by
  unfold Log.maybeFlush
  apply wp_bind
  apply wp_getSelf
  split
  . exact h.wp_flush_of_stopped hT hok hfail hstopped
  . apply wp_pure
    exact hok m (Extends.refl m) h

theorem Inv.wp_maybeFlush (h : Inv c keys spec m.disk m.self) (hT : ∀ d, T d → Sound c d)
    {Q : Unit → Machine Call Disk Log → Prop} {E : Failure Error → Machine Call Disk Log → Prop}
    (hok : ∀ m', Extends m m' → Inv c keys spec m'.disk m'.self → Q () m')
    (hfail : ∀ e m', Extends m m' →
      (Strict c m'.disk → NoOldSet c keys spec m.disk → Inv c keys spec m'.disk m'.self) →
      (e = .fault ∨ e = .raised .fileTooLarge ∨ 2 ^ 32 ≤ m.self.memtable.len * 10) → E e m') :
    wp T (Log.maybeFlush c) Q E m := by
  unfold Log.maybeFlush
  apply wp_bind
  apply wp_getSelf
  split
  . exact h.wp_flush hT hok hfail
  . apply wp_pure
    exact hok m (Extends.refl m) h

theorem replayed_encodedAll {entries : List Entry}
    (h : ∀ entry ∈ entries, Writable c.toCodec entry) {contents : Contents}
    (hbytes : contents.bytes = encodedAll c.toCodec entries) :
    replayed c contents = entries := by
  have hlen : contents.length = (encodedAll c.toCodec entries).length := by rw [← hbytes]; rfl
  have hdrain := drain_encodedAll [] [] contents.length h (by rw [hlen]; simp)
  simp only [List.nil_append, List.append_nil, List.length_nil, Nat.zero_add] at hdrain
  rw [← hbytes] at hdrain
  unfold replayed recordsFrom
  rw [hdrain, Resync.drain_of_forall_none, List.append_nil, map_snd_placed]
  intro q hq hq'
  omega

theorem run_new_truncate {m : Machine Call Disk σ} (hm : m.Faultless) (truncate : Bool)
    {wal : Contents} (hwal : wal = if truncate then .empty else m.disk.wal)
    (hentries : ∀ entry ∈ replayed c wal, Serializable c.toCodec entry) :
    ∃ log m', (Log.new c truncate).run m = .ok log m' ∧ Extends m m'
      ∧ m'.disk = m.disk.write .wal wal ∧ m'.self = m.self ∧ log.walFile.path = .wal
      ∧ log.memtable = (replayed c wal).foldl (MemTable.processed c) .new
      ∧ log.flushCount = m.disk.sstables.keys.length := by
  have hwp : wp (fun _ => True) (Log.new c truncate) (fun log m' => Extends m m'
      ∧ m'.disk = m.disk.write .wal wal ∧ m'.self = m.self ∧ log.walFile.path = .wal
      ∧ log.memtable = (replayed c wal).foldl (MemTable.processed c) .new
      ∧ log.flushCount = m.disk.sstables.keys.length) (fun e _ => e = .fault) m := by
    unfold Log.new
    apply wp_bind
    apply wp_createDirAll _ (fun _ _ _ => rfl)
    intro m1 hm1 hself1
    apply wp_bind
    apply wp_createDirAll _ (fun _ _ _ => rfl)
    intro m2 hm2 hself2
    have hm2 := hm1.trans hm2
    apply wp_bind
    apply wp_createFile _ (fun _ _ _ => rfl)
    intro m3 hm3 hdisk3 hself3
    have hdisk3 : m3.disk = m.disk.write .wal wal := by
      rw [hdisk3, hm2.disk_eq, hwal]
      rfl
    have hm3 := hm2.later.trans hm3
    have hopen := run_fromFile (c := c) (m := m3.withSelf ⟨.wal, 0⟩) (hm3.faultless.mpr hm)
      (by rw [Machine.withSelf_disk, hdisk3]; exact hentries)
    rcases hopen with ⟨m4, hrun4, hm4, hpath4⟩
    have hdisk4 : m4.disk = m.disk.write .wal wal := hm4.disk_eq.trans hdisk3
    have hm4 := hm3.trans hm4.later.of_withSelf
    apply wp_bind
    apply wp_on
    apply wp_of_run hrun4
    apply wp_bind
    apply wp_readDir _ (fun _ _ _ => rfl)
    intro m5 hm5 hself5
    apply wp_pure
    refine ⟨hm4.trans hm5.later.of_withSelf, hm5.disk_eq.trans hdisk4, ?_, hpath4, ?_, ?_⟩
    . rw [hself5, Machine.withSelf_self, hself3, hself2, hself1]
    . rw [Machine.withSelf_disk, hdisk3]
      rfl
    . change m4.disk.sstables.keys.length = _
      rw [hdisk4]
      rfl
  rcases hwp.exists_ok hm ⟨trivial, fun _ _ => trivial⟩ (by simp) with ⟨log, m', hrun, h⟩
  exact ⟨log, m', hrun, h⟩

theorem run_new {m : Machine Call Disk σ} (hm : m.Faultless)
    (hentries : ∀ entry ∈ replayed c m.disk.wal, Serializable c.toCodec entry) :
    ∃ log m', (Log.new c false).run m = .ok log m' ∧ Reads m m' ∧ m'.self = m.self
      ∧ log.walFile.path = .wal
      ∧ log.memtable = (replayed c m.disk.wal).foldl (MemTable.processed c) .new
      ∧ log.flushCount = m.disk.sstables.keys.length := by
  rcases run_new_truncate (c := c) hm false rfl hentries with ⟨log, m', hrun, hm', hdisk, h⟩
  exact ⟨log, m', hrun, ⟨hm', hdisk⟩, h⟩

end Chickadee
