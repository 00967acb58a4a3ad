import Chickadee.Lemmas.Run
import Chickadee.Lemmas.Size

/-!
This module contains what the operations of the log do to the account of its memtable, whatever the
clock says and whatever the files hold.
-/

namespace Chickadee

open Faulty Faulty.Io Layers KWay MemTable

variable {σ : Type} {T : Disk → Prop} {c : Crates}

def NoOverflow (e : Failure Error) : Prop :=
  e ≠ .raised .tryFromInt ∧ ∀ msg, e ≠ .raised (.context msg)

theorem NoOverflow.of_io {e : Failure Error} (h : e = .fault ∨ e = .raised .fileTooLarge) :
    NoOverflow e := by
  rcases h with rfl | rfl <;> simp [NoOverflow]

-- no file of `d` is gone and the WAL is as it was
def Kept (d d' : Disk) : Prop :=
  d'.wal = d.wal ∧ ∀ name ∈ d.sstables.keys, name ∈ d'.sstables.keys

theorem Kept.refl (d : Disk) : Kept d d :=
  ⟨rfl, fun _ h => h⟩

theorem Kept.trans {d d' d'' : Disk} (h : Kept d d') (h' : Kept d' d'') : Kept d d'' :=
  ⟨h'.1.trans h.1, fun name hname => h'.2 name (h.2 name hname)⟩

theorem kept_write (d : Disk) (name : String) (contents : Contents) :
    Kept d (d.tick.write (.sstable name) contents) := by
  refine ⟨rfl, ?_⟩
  intro name' hname'
  exact (SortedMap.mem_keys_insert _ _ _ _).mpr (Or.inr hname')

theorem FlushLeft.kept {memtable : MemTable} {d d' : Disk} (h : FlushLeft c memtable d d') :
    Kept d d' := by
  cases h with
  | unchanged => exact Kept.refl d
  | ticked => exact Kept.refl d
  | part new _ => exact kept_write d _ new

-- the memtable of a compaction together with the keys that it has dealt with
structure Merging (c : Crates) (memtable : MemTable) (seenKeys : List String) : Prop where
  holds : memtable.Holds (Serializable c.toCodec)
  counted : memtable.Counted
  len_le : memtable.len ≤ flushThresholdMb * 2 ^ 20 + 2
  seen : ∀ key, memtable.get key ≠ none → key ∈ seenKeys

theorem merging_new (seenKeys : List String) : Merging c .new seenKeys :=
  ⟨holds_new _, counted_new, Nat.zero_le _, fun _ h => absurd rfl h⟩

theorem Merging.insert {memtable : MemTable} {seenKeys : List String}
    (h : Merging c memtable seenKeys) (key : String) : Merging c memtable (seenKeys.insert key) :=
  ⟨h.holds, h.counted, h.len_le, fun key' hkey' => List.mem_insert_of_mem (h.seen key' hkey')⟩

theorem Merging.processed {memtable : MemTable} {seenKeys : List String}
    (h : Merging c memtable seenKeys) {entry : Entry} (hentry : Serializable c.toCodec entry)
    (hnew : entry.key ∉ seenKeys) (hsize : memtable.size ≤ flushThresholdMb * 2 ^ 20) :
    Merging c (memtable.processed c entry) (seenKeys.insert entry.key) := by
  have hget : memtable.get entry.key = none := by
    by_contra hget
    exact hnew (h.seen _ hget)
  have hcounted := h.counted.processed hentry hget hsize
  refine ⟨h.holds.processed hentry, hcounted.1, hcounted.2, ?_⟩
  intro key hkey
  rw [get_processed] at hkey
  split at hkey
  . next heq =>
    rw [heq]
    exact List.mem_insert_self
  . exact List.mem_insert_of_mem (h.seen key hkey)

theorem Merging.small {memtable : MemTable} {seenKeys : List String}
    (h : Merging c memtable seenKeys) : memtable.len * 10 < 2 ^ 32 := by
  have := h.len_le
  unfold flushThresholdMb at this
  omega

theorem serializable_or_none (hc : PayloadsFit c) (entry : Entry) :
    Serializable c.toCodec entry ∨ c.serialize entry = none := by
  cases hpayload : c.serialize entry with
  | none => exact Or.inr rfl
  | some payload => exact Or.inl ⟨payload, hpayload, (hc entry payload hpayload).lt⟩

theorem run_process_of_none {m : Machine Call Disk MemTable} {entry : Entry}
    (hget : m.self.get entry.key = none) (h : c.serialize entry = none) :
    (process c entry).run m = .error (.raised .wincode) m := by
  have hget : m.self.inner.get? entry.key = none := hget
  have hsize : entrySize c entry = .error .wincode := by simp only [entrySize, h]
  unfold process
  rw [run_bind_of_ok (run_getSelf m), hget, hsize]
  rfl

theorem answers_next (c : Crates) (d : Disk) (sstable : SSTable) (self : σ) :
    ∃ cursor, Answers (on sstable (SSTable.readNextEntry c)) d self cursor self := by
  rcases sstable with ⟨filter, bound, path, pos⟩
  have hnext := answers_readNextEntry (c := c) filter bound pos (rfl : d.read path = _)
  exact ⟨_, Answers.on hnext⟩

theorem wp_mergeRound (hc : PayloadsFit c) {min : String} {cursors : List Cursor}
    {memtable : MemTable} {seenKeys : List String}
    {Q : List Cursor × MemTable × List String → Machine Call Disk σ → Prop}
    {E : Failure Error → Machine Call Disk σ → Prop} {m : Machine Call Disk σ}
    (h : Merging c memtable seenKeys)
    (hsize : min ∉ seenKeys → memtable.size ≤ flushThresholdMb * 2 ^ 20)
    (hok : ∀ cursors' memtable' seenKeys' m', Reads m m' → Merging c memtable' seenKeys' →
      Q (cursors', memtable', seenKeys') m')
    (hfail : ∀ e m', Reads m m' → NoOverflow e → E e m') :
    wp T (mergeRound c min cursors memtable seenKeys) Q E m := by
  have hfault : ∀ m', Reads m m' → E .fault m' := fun m' hm' =>
    hfail .fault m' hm' (NoOverflow.of_io (Or.inl rfl))
  induction cursors generalizing memtable seenKeys m Q with
  | nil =>
    apply wp_pure
    exact hok [] memtable seenKeys m (Reads.refl m) h
  | cons cursor cursors ih =>
    rcases cursor with ⟨head, sstable⟩
    cases head with
    | none =>
      unfold mergeRound
      apply wp_bind
      apply ih h hsize
      . intro cursors' memtable' seenKeys' m' hm' h'
        apply wp_pure
        exact hok _ memtable' seenKeys' m' hm' h'
      . exact hfail
      . exact hfault
    | some entry =>
      unfold mergeRound
      split
      . next hkey =>
        subst hkey
        -- what comes after the entry has been settled
        have hrest : ∀ (memtable' : MemTable) (m1 : Machine Call Disk σ), Reads m m1 →
            Merging c memtable' (seenKeys.insert entry.key) → wp T (do
              let cursor ← on sstable (SSTable.readNextEntry c)
              let r ← mergeRound c entry.key cursors memtable' (seenKeys.insert entry.key)
              return (cursor :: r.1, r.2)) Q E m1 := by
          intro memtable' m1 hm1 h1
          rcases answers_next c m1.disk sstable m1.self with ⟨cursor, hnext⟩
          apply wp_bind
          apply hnext T _ _ m1 rfl rfl
          . intro m2 hm2 _
            have hm2 := hm1.trans hm2
            apply wp_bind
            apply ih h1 (fun hnot => absurd List.mem_insert_self hnot)
            . intro cursors' memtable'' seenKeys' m' hm' h'
              apply wp_pure
              exact hok _ memtable'' seenKeys' m' (hm2.trans hm') h'
            . intro e m' hm'
              exact hfail e m' (hm2.trans hm')
            . intro m' hm'
              exact hfault m' (hm2.trans hm')
          . intro m' hm'
            exact hfault m' (hm1.trans hm')
        dsimp only
        split
        . next hnew =>
          have hget : memtable.get entry.key = none := by
            by_contra hget
            exact hnew.1 (h.seen _ hget)
          apply wp_bind
          apply wp_map
          rcases serializable_or_none hc entry with hentry | hnone
          . apply (Answers.on (answers_process (d := m.disk) h.holds hentry)) T _ _ m rfl rfl
            . intro m1 hm1 _
              exact hrest _ m1 hm1 (h.processed hentry hnew.1 (hsize hnew.1))
            . exact hfault
          . apply wp_on
            have hrun := run_process_of_none (c := c) (m := m.withSelf memtable) hget hnone
            intro _
            rw [hrun]
            exact hfail _ _ (Reads.refl m) (by simp [NoOverflow])
        . apply wp_bind
          apply wp_pure
          exact hrest memtable m (Reads.refl m) (h.insert _)
      . apply wp_bind
        apply ih h hsize
        . intro cursors' memtable' seenKeys' m' hm' h'
          apply wp_pure
          exact hok _ memtable' seenKeys' m' hm' h'
        . exact hfail
        . exact hfault

theorem wp_mergeLoop_of_payloads (hc : PayloadsFit c) (fuel : Nat) {cursors : List Cursor}
    {memtable : MemTable} {seenKeys : List String}
    {Q : MemTable → Machine Call Disk σ → Prop} {E : Failure Error → Machine Call Disk σ → Prop}
    {m : Machine Call Disk σ} (h : Merging c memtable seenKeys)
    (hsize : memtable.size ≤ flushThresholdMb * 2 ^ 20)
    (hok : ∀ memtable' seenKeys' m', Kept m.disk m'.disk → Merging c memtable' seenKeys' →
      Q memtable' m')
    (hfail : ∀ e m', Kept m.disk m'.disk → NoOverflow e → E e m') :
    wp T (mergeLoop c fuel cursors memtable seenKeys) Q E m := by
  induction fuel generalizing m cursors memtable seenKeys with
  | zero =>
    apply wp_raise
    exact hfail _ m (Kept.refl _) (by simp [NoOverflow])
  | succ fuel ih =>
    unfold mergeLoop
    dsimp only
    split
    . apply wp_pure
      exact hok memtable seenKeys m (Kept.refl _) h
    . apply wp_bind
      apply wp_mergeRound hc h (fun _ => hsize)
      . intro cursors' memtable' seenKeys' m1 hm1 h1
        dsimp only
        have hkept1 : Kept m.disk m1.disk := by
          rw [hm1.disk_eq]
          exact Kept.refl _
        split
        . apply wp_bind
          apply wp_map
          apply wp_on
          apply wp_flushTo h1.holds
          . intro hempty
            have hnew : memtable' = .new := eq_new_of_isEmpty hempty
            subst hnew
            apply ih (merging_new _) (Nat.zero_le _)
            . intro memtable'' seenKeys'' m' hkept
              exact hok memtable'' seenKeys'' m' (hkept1.trans hkept)
            . intro e m' hkept
              exact hfail e m' (hkept1.trans hkept)
          . intro m2 new _ _ _ _ hdisk2 hself2
            have hkept2 : Kept m.disk m2.disk := by
              rw [hdisk2]
              exact hkept1.trans (kept_write _ _ new)
            rw [hself2]
            apply ih (merging_new _) (Nat.zero_le _)
            . intro memtable'' seenKeys'' m' hkept
              exact hok memtable'' seenKeys'' m' (hkept2.trans hkept)
            . intro e m' hkept
              exact hfail e m' (hkept2.trans hkept)
          . intro e m2 _ hleft _ he
            have hkept2 : Kept m1.disk m2.disk := hleft.kept
            refine hfail e _ (hkept1.trans hkept2) ?_
            rcases he with he | he | hlong
            . exact NoOverflow.of_io (Or.inl he)
            . exact NoOverflow.of_io (Or.inr he)
            . exact absurd hlong (Nat.not_le.mpr h1.small)
        . next hflush =>
          apply wp_bind
          apply wp_pure
          apply ih h1 (not_shouldFlush_iff.mp hflush)
          . intro memtable'' seenKeys'' m' hkept
            exact hok memtable'' seenKeys'' m' (hkept1.trans hkept)
          . intro e m' hkept
            exact hfail e m' (hkept1.trans hkept)
      . intro e m1 hm1 he
        apply hfail e m1 _ he
        rw [hm1.disk_eq]
        exact Kept.refl _

theorem wp_compact_of_payloads (hc : PayloadsFit c) {Q : Unit → Machine Call Disk σ → Prop}
    {E : Failure Error → Machine Call Disk σ → Prop} {m : Machine Call Disk σ}
    (hok : ∀ m', m'.disk.wal = m.disk.wal → Q () m')
    (hfail : ∀ e m', m'.disk.wal = m.disk.wal → NoOverflow e → E e m') :
    wp T (compact c) Q E m := by
  have hdelete : ∀ m' : Machine Call Disk σ, Kept m.disk m'.disk →
      wp T (m.disk.sstables.keys.reverse.forM removeFile) Q E m' := by
    intro m' hkept
    apply wp_removeAll
    . exact List.nodup_reverse.mpr (m.disk.sstables.keys_sorted.imp ne_of_lt)
    . intro name hname
      exact hkept.2 name (List.mem_reverse.mp hname)
    . intro m'' _ hdisk
      apply hok m''
      rw [hdisk, removeAll_wal, hkept.1]
    . intro m'' done _ _ _ hdisk _
      apply hfail .fault m'' _ (NoOverflow.of_io (Or.inl rfl))
      rw [hdisk, removeAll_wal, hkept.1]
  apply wp_compact_of_merge fun memtable m1 => Kept m.disk m1.disk
    ∧ ∃ seenKeys, Merging c memtable seenKeys
  . intro m1 sstables cursors hm1 _ _
    apply wp_mergeLoop_of_payloads hc _ (merging_new []) (Nat.zero_le _)
    . intro memtable seenKeys m2 hkept h2
      rw [hm1.disk_eq] at hkept
      exact ⟨hkept, seenKeys, h2⟩
    . intro e m2 hkept he
      rw [hm1.disk_eq] at hkept
      exact hfail e m2 hkept.1 he
  . rintro memtable m1 ⟨hkept, seenKeys, h1⟩ _
    apply wp_on
    apply wp_flushTo h1.holds
    . intro _
      exact hdelete _ hkept
    . intro m2 new _ _ _ _ hdisk2 _
      apply hdelete
      rw [Machine.withSelf_disk, hdisk2]
      exact hkept.trans (kept_write _ _ new)
    . intro e m2 _ hleft _ he
      have hkept2 : Kept m1.disk m2.disk := hleft.kept
      refine hfail e _ (hkept.trans hkept2).1 ?_
      rcases he with he | he | hlong
      . exact NoOverflow.of_io (Or.inl he)
      . exact NoOverflow.of_io (Or.inr he)
      . exact absurd hlong (Nat.not_le.mpr h1.small)
  . rintro memtable m1 ⟨hkept, -⟩ _
    exact hdelete m1 hkept
  . intro m' hm'
    exact hfail .fault m' (by rw [hm'.disk_eq]) (NoOverflow.of_io (Or.inl rfl))

-- the memtable is the replay of the WAL, and none on the way to it has had to be flushed
structure Accounted (c : Crates) (d : Disk) (log : Log) : Prop where
  path_eq : log.walFile.path = .wal
  wal : ∃ entries, (∀ entry ∈ entries, Fits c entry)
    ∧ d.wal.bytes = encodedAll c.toCodec entries
    ∧ log.memtable = entries.foldl (MemTable.processed c) .new ∧ Light c entries

def Settled (c : Crates) (d : Disk) (log : Log) : Prop :=
  Accounted c d log ∧ log.memtable.size ≤ flushThresholdMb * 2 ^ 20

namespace Accounted

variable {d : Disk} {log log' : Log}

theorem holds (h : Accounted c d log) : log.memtable.Holds (Fits c) := by
  rcases h.wal with ⟨entries, hfits, -, hmemtable, -⟩
  rw [hmemtable]
  exact holds_foldl_processed hfits

theorem stored (h : Accounted c d log) : log.memtable.Stored c :=
  fun entry hentry => (h.holds entry hentry).1

theorem size_eq (h : Accounted c d log) : log.memtable.size = weight c log.memtable := by
  rcases h.wal with ⟨entries, hfits, -, hmemtable, hlight⟩
  rw [hmemtable]
  exact (size_foldl_processed hfits hlight).1

theorem small (h : Accounted c d log) : log.memtable.len * 10 < 2 ^ 32 := by
  rcases h.wal with ⟨entries, hfits, -, hmemtable, hlight⟩
  have hle := len_foldl_processed_le hfits hlight
  rw [← hmemtable] at hle
  unfold flushThresholdMb at hle
  omega

theorem congr {d' : Disk} (h : Accounted c d log) (hwal : d'.wal = d.wal)
    (hpath : log'.walFile.path = .wal) (hmemtable : log'.memtable = log.memtable) :
    Accounted c d' log' := by
  refine ⟨hpath, ?_⟩
  rw [hwal, hmemtable]
  exact h.wal

theorem empty (hwal : d.wal = .empty) (hpath : log.walFile.path = .wal)
    (hmemtable : log.memtable = .new) : Settled c d log := by
  refine ⟨⟨hpath, [], by simp, ?_, hmemtable, ?_⟩, ?_⟩
  . rw [hwal]
    rfl
  . intro done hdone hlt
    exact absurd hlt (Nat.not_lt_zero _)
  . rw [hmemtable]
    exact Nat.zero_le _

theorem append (h : Accounted c d log) (hsize : log.memtable.size ≤ flushThresholdMb * 2 ^ 20)
    {entry : Entry} (hentry : Fits c entry) {new : Contents}
    (hnew : new.bytes = d.wal.bytes ++ encoded c.toCodec entry) (hpath : log'.walFile.path = .wal)
    (hmemtable : log'.memtable = log.memtable.processed c entry) :
    Accounted c (d.write .wal new) log' := by
  rcases h.wal with ⟨entries, hfits, hbytes, hold, hlight⟩
  rw [hold] at hsize
  refine ⟨hpath, entries ++ [entry], ?_, ?_, ?_, hlight.append hsize entry⟩
  . intro e he
    cases List.mem_append.mp he with
    | inl hmem => exact hfits e hmem
    | inr hmem => rwa [List.mem_singleton.mp hmem]
  . change new.bytes = _
    rw [hnew, hbytes, encodedAll_append]
    simp
  . rw [hmemtable, hold, List.foldl_append]
    rfl

theorem replayed_eq (h : Accounted c d log) :
    (∀ entry ∈ replayed c d.wal, Writable c.toCodec entry)
      ∧ log.memtable = (replayed c d.wal).foldl (MemTable.processed c) .new := by
  rcases h.wal with ⟨entries, hfits, hbytes, hmemtable, -⟩
  rw [replayed_encodedAll (fun entry hentry => (hfits entry hentry).1) hbytes]
  exact ⟨fun entry hentry => (hfits entry hentry).1, hmemtable⟩

end Accounted

theorem wp_write_of_error {entry : Entry} {err : Error}
    (h : Serializer.serialize c.toCodec entry = .error err)
    {Q : Unit → Machine Call Disk Log → Prop} {E : Failure Error → Machine Call Disk Log → Prop}
    {m : Machine Call Disk Log}
    (hfail : ∀ e m', Reads m m' → m'.self.walFile.path = m.self.walFile.path →
      m'.self.memtable = m.self.memtable → (e = .fault ∨ e = .raised err) → E e m') :
    wp T (Log.write c entry) Q E m := by
  unfold Log.write Log.zoomWal headerWrite
  apply wp_bind
  apply wp_zoom
  apply wp_bind
  apply wp_seek (Reading.seek_fromEnd (Nat.zero_le _))
  . intro m1 hm1 hself1
    rw [h]
    apply wp_bind
    apply wp_raise
    refine hfail _ _ (hm1.of_withSelf.withSelf _) ?_ rfl (Or.inr rfl)
    rw [Machine.withSelf_self, hself1]
    rfl
  . intro m1 hm1 hpath1
    exact hfail _ _ (hm1.of_withSelf.withSelf _) hpath1 rfl (Or.inl rfl)

theorem serialize_of_none {entry : Entry} (h : c.serialize entry = none) :
    Serializer.serialize c.toCodec entry = .error .wincode := by
  unfold Serializer.serialize
  rw [h]

-- what is left of the account when an operation gives up
def Left (c : Crates) (e : Failure Error) (m : Machine Call Disk Log) : Prop :=
  (e = .fault ∨ e = .raised .fileTooLarge) ∨ (NoOverflow e ∧ Settled c m.disk m.self)

namespace Settled

variable {m : Machine Call Disk Log}

theorem wp_write (hc : PayloadsFit c) (h : Settled c m.disk m.self) {entry : Entry}
    (hkey : (bytesOf entry.key).length ≤ isizeMax) {Q : Unit → Machine Call Disk Log → Prop}
    {E : Failure Error → Machine Call Disk Log → Prop}
    (hok : ∀ m', Accounted c m'.disk m'.self → Q () m') (hfail : ∀ e m', Left c e m' → E e m') :
    wp T (Log.write c entry) Q E m := by
  cases hpayload : c.serialize entry with
  | none =>
    apply wp_write_of_error (serialize_of_none hpayload)
    intro e m' hm' hpath hmemtable he
    apply hfail e m'
    rcases he with rfl | rfl
    . exact Or.inl (Or.inl rfl)
    . refine Or.inr ⟨by simp [NoOverflow], ?_, ?_⟩
      . exact h.1.congr (by rw [hm'.disk_eq]) (hpath.trans h.1.path_eq) hmemtable
      . rw [hmemtable]
        exact h.2
  | some payload =>
    have hfits : Fits c entry := ⟨⟨payload, hc entry payload hpayload⟩, hkey⟩
    apply Chickadee.wp_write hfits.1 h.1.path_eq h.1.stored
    . intro m' new _ hnew hdisk hpath hmemtable _
      apply hok m'
      rw [hdisk]
      exact h.1.append h.2 hfits hnew hpath hmemtable
    . intro e m' _ _ _ _ _ _ _ _ _ he
      exact hfail e m' (Or.inl he)

theorem wp_flush (hc : PayloadsFit c) (h : Accounted c m.disk m.self)
    {Q : Unit → Machine Call Disk Log → Prop} {E : Failure Error → Machine Call Disk Log → Prop}
    (hok : ∀ m', Settled c m'.disk m'.self → Q () m') (hfail : ∀ e m', Left c e m' → E e m') :
    wp T (Log.flush c) Q E m := by
  unfold Log.flush
  apply wp_bind
  apply Chickadee.wp_flushTables h.path_eq h.stored.serializable
  . intro m1 d1 _ _ hdisk1 hpath1 hnew1 _
    have hwal1 : m1.disk.wal = .empty := by
      rw [hdisk1]
      rfl
    apply wp_bind
    apply wp_getSelf
    split
    . apply wp_selfless selfless_compact
      apply wp_compact_of_payloads hc
      . intro m' hwal hself
        apply hok m'
        rw [hself]
        exact Accounted.empty (hwal.trans hwal1) hpath1 hnew1
      . intro e m' hwal he hself
        apply hfail e m' (Or.inr ⟨he, _⟩)
        rw [hself]
        exact Accounted.empty (hwal.trans hwal1) hpath1 hnew1
    . apply wp_pure
      exact hok m1 (Accounted.empty hwal1 hpath1 hnew1)
  . intro e m1 _ _ _ _ he
    apply hfail e m1 (Or.inl _)
    rcases he with he | he | hlong
    . exact Or.inl he
    . exact Or.inr he
    . exact absurd hlong (Nat.not_le.mpr h.small)
  . intro m1 _ _ _ _ _ _
    exact hfail .fault m1 (Or.inl (Or.inl rfl))

/--
A memtable that has become too large is flushed.
-/
theorem wp_maybeFlush (hc : PayloadsFit c) (h : Accounted c m.disk m.self)
    {Q : Unit → Machine Call Disk Log → Prop} {E : Failure Error → Machine Call Disk Log → Prop}
    (hok : ∀ m', Settled c m'.disk m'.self → Q () m') (hfail : ∀ e m', Left c e m' → E e m') :
    wp T (Log.maybeFlush c) Q E m := by
  unfold Log.maybeFlush
  apply wp_bind
  apply wp_getSelf
  split
  . exact wp_flush hc h hok hfail
  . next hflush =>
    apply wp_pure
    exact hok m ⟨h, not_shouldFlush_iff.mp hflush⟩

theorem run_reopen {m : Store} (h : Settled c m.disk m.self) (hm : m.Faultless) :
    ∃ m', (Log.reopen c).run m = .ok () m' ∧ m'.self.memtable = m.self.memtable
      ∧ Settled c m'.disk m'.self := by
  rcases h.1.replayed_eq with ⟨hwritable, hmemtable⟩
  rcases run_new hm fun entry hentry => (hwritable entry hentry).serializable with
    ⟨log, m1, hrun, hm1, -, hpath, hlog, -⟩
  refine ⟨m1.withSelf log, ?_, hlog.trans hmemtable.symm, ?_, ?_⟩
  . unfold Log.reopen
    rw [run_bind_of_ok hrun]
    rfl
  . exact h.1.congr (by rw [Machine.withSelf_disk, hm1.disk_eq]) hpath (hlog.trans hmemtable.symm)
  . rw [Machine.withSelf_self, hlog, ← hmemtable]
    exact h.2

end Settled

end Chickadee
