import Chickadee.Lemmas.Directory

/-!
This module contains what the memtable does: it keeps the last entry of every key, a flush of it
writes its image, and the replay of a WAL processes the records that the scan of it finds.
-/

namespace Chickadee

open Faulty Faulty.Io Layers LittleEndian Resync

variable {σ : Type} {T : Disk → Prop}

namespace Answers

variable {α : Type} {d : Disk} {s : σ}

theorem setSelf (s' : σ) : Answers (Io.setSelf s') d s () s' := by
  intro T Q E m _ _ hok _
  apply wp_setSelf
  exact hok _ ((Reads.refl m).withSelf s') rfl

end Answers

variable (c : Crates)

def MemTable.Holds (P : Entry → Prop) (memtable : MemTable) : Prop :=
  ∀ entry ∈ memtable.values, P entry

def MemTable.Stored (memtable : MemTable) : Prop :=
  memtable.Holds (Writable c.toCodec)

def MemTable.sizeOf (entry : Entry) : Nat :=
  match MemTable.entrySize c entry with
  | .ok size => size
  | .error _ => 0

def MemTable.processed (memtable : MemTable) (entry : Entry) : MemTable :=
  let size :=
    match memtable.inner.get? entry.key with
    | some previous => saturatingSub memtable.size (sizeOf c previous)
    | none => memtable.size
  memtable.store entry (saturatingAdd size (sizeOf c entry))

def replay (entries : List Entry) : SortedMap String Entry :=
  entries.foldl (fun m entry => m.insert entry.key entry) .empty

variable {c}

namespace MemTable

theorem entrySize_eq {entry : Entry} (h : Serializable c.toCodec entry) :
    entrySize c entry = .ok (sizeOf c entry) := by
  rcases h with ⟨payload, h, -⟩
  simp only [sizeOf, entrySize, h]

@[simp]
theorem get_processed (memtable : MemTable) (entry : Entry) (key : String) :
    (memtable.processed c entry).get key
      = if key = entry.key then some entry else memtable.get key :=
  SortedMap.get?_insert _ _ _ _

theorem mem_values_iff {memtable : MemTable} {entry : Entry} :
    entry ∈ memtable.values ↔ memtable.get entry.key = some entry := by
  unfold MemTable.get values SortedMap.values
  rw [SortedMap.get?_eq_some_iff, List.mem_map]
  constructor
  . rintro ⟨p, hp, rfl⟩
    rw [memtable.keyed p hp]
    exact hp
  . intro h
    exact ⟨_, h, rfl⟩

theorem key_of_get {memtable : MemTable} {key : String} {entry : Entry}
    (h : memtable.get key = some entry) : entry.key = key :=
  memtable.keyed (key, entry) ((SortedMap.get?_eq_some_iff _ _ _).mp h)

theorem Holds.of_get {P : Entry → Prop} {memtable : MemTable} (h : memtable.Holds P) {key : String}
    {entry : Entry} (hget : memtable.get key = some entry) : P entry := by
  apply h
  rw [mem_values_iff, key_of_get hget, hget]

theorem Holds.processed {P : Entry → Prop} {memtable : MemTable} (h : memtable.Holds P)
    {entry : Entry} (hentry : P entry) : (memtable.processed c entry).Holds P := by
  intro e he
  rw [mem_values_iff, get_processed] at he
  split at he
  . cases he
    exact hentry
  . exact h.of_get he

theorem holds_new (P : Entry → Prop) : MemTable.new.Holds P := by
  intro entry h
  contradiction

theorem Holds.foldl_processed {P : Entry → Prop} {entries : List Entry}
    (h : ∀ entry ∈ entries, P entry) {memtable : MemTable} (hholds : memtable.Holds P) :
    (entries.foldl (MemTable.processed c) memtable).Holds P := by
  induction entries generalizing memtable with
  | nil => exact hholds
  | cons entry entries ih =>
    apply ih (fun e he => h e (List.mem_cons_of_mem _ he))
    exact hholds.processed (h entry List.mem_cons_self)

theorem Stored.serializable {memtable : MemTable} (h : memtable.Stored c) :
    memtable.Holds (Serializable c.toCodec) :=
  fun entry hentry => (h entry hentry).serializable

theorem Stored.processed {memtable : MemTable} (h : memtable.Stored c) {entry : Entry}
    (hentry : Writable c.toCodec entry) : (memtable.processed c entry).Stored c :=
  Holds.processed h hentry

theorem stored_new : MemTable.new.Stored c :=
  holds_new _

@[simp]
theorem get_new (key : String) : MemTable.new.get key = none := rfl

theorem values_pairwise (memtable : MemTable) :
    memtable.values.Pairwise (fun e e' => e.key < e'.key) := by
  unfold values SortedMap.values
  rw [List.pairwise_map]
  have hkeyed := memtable.keyed
  apply memtable.inner.sorted.imp_of_mem
  intro p q hp hq hlt
  rw [hkeyed p hp, hkeyed q hq]
  exact hlt

theorem Stored.tableEntries {memtable : MemTable} (h : memtable.Stored c) :
    TableEntries c memtable.values :=
  ⟨values_pairwise memtable, h⟩

theorem find?_values (memtable : MemTable) (key : String) :
    (memtable.values.find? fun entry => entry.key = key) = memtable.get key := by
  cases hget : memtable.get key with
  | none =>
    rw [List.find?_eq_none]
    intro entry hentry hkey
    rw [mem_values_iff, of_decide_eq_true hkey, hget] at hentry
    contradiction
  | some entry =>
    have hkey := key_of_get hget
    cases hfind : memtable.values.find? fun entry => entry.key = key with
    | none =>
      rw [List.find?_eq_none] at hfind
      have hmem : entry ∈ memtable.values := by rw [mem_values_iff, hkey, hget]
      exact absurd (decide_eq_true hkey) (hfind entry hmem)
    | some entry' =>
      have hkey' : entry'.key = key := by simpa using List.find?_some hfind
      have hmem' := mem_values_iff.mp (List.mem_of_find?_eq_some hfind)
      rw [hkey', hget] at hmem'
      exact hmem'.symm

theorem length_values (memtable : MemTable) : memtable.values.length = memtable.len := by
  simp [values, SortedMap.values, len, SortedMap.size]

theorem get_of_isEmpty {memtable : MemTable} (h : memtable.isEmpty = true) (key : String) :
    memtable.get key = none := by
  unfold isEmpty at h
  rw [Bool.and_eq_true] at h
  exact (SortedMap.isEmpty_iff _).mp h.2 key

theorem isEmpty_of_shouldFlush {memtable : MemTable} (h : memtable.shouldFlush = true) :
    memtable.isEmpty = false := by
  unfold shouldFlush at h
  unfold isEmpty
  rw [Bool.and_eq_false_iff]
  apply Or.inl
  rw [beq_eq_false_iff_ne]
  intro hzero
  simp [hzero] at h

theorem not_shouldFlush_iff {memtable : MemTable} :
    ¬memtable.shouldFlush = true ↔ memtable.size ≤ flushThresholdMb * 2 ^ 20 := by
  unfold shouldFlush
  rw [decide_eq_true_eq]
  exact Nat.not_lt

theorem eq_new_of_isEmpty {memtable : MemTable} (h : memtable.isEmpty = true) : memtable = .new := by
  have hinner : memtable.inner = .empty := SortedMap.ext_get? (get_of_isEmpty h)
  unfold isEmpty at h
  rw [Bool.and_eq_true, beq_iff_eq] at h
  rcases memtable with ⟨inner, size, keyed⟩
  dsimp only at hinner h
  subst hinner
  rw [h.1]
  rfl

theorem run_process {m : Machine Call Disk MemTable} {entry : Entry}
    (hstored : m.self.Holds (Serializable c.toCodec)) (hentry : Serializable c.toCodec entry) :
    (process c entry).run m
      =
    .ok (m.self.get entry.key) (m.withSelf (m.self.processed c entry)) := by
  unfold process processed
  rw [run_bind_of_ok (run_getSelf m)]
  cases hget : m.self.inner.get? entry.key with
  | none =>
    dsimp only
    rw [entrySize_eq hentry, run_bind_of_ok (run_ofExcept_ok _ m)]
    unfold MemTable.get
    rw [hget, ← hget]
    rfl
  | some previous =>
    have hprevious : MemTable.entrySize c previous = .ok (sizeOf c previous) :=
      entrySize_eq (hstored.of_get hget)
    dsimp only
    rw [hprevious, run_bind_of_ok (run_ofExcept_ok _ m)]
    unfold MemTable.get
    rw [hget, ← hget, entrySize_eq hentry]
    rfl

theorem answers_process {d : Disk} {memtable : MemTable} {entry : Entry}
    (hstored : memtable.Holds (Serializable c.toCodec)) (hentry : Serializable c.toCodec entry) :
    Answers (process c entry) d memtable (memtable.get entry.key) (memtable.processed c entry) := by
  intro T Q E m _ hs hok _
  subst hs
  apply wp_of_run (run_process hstored hentry)
  exact hok _ ((Reads.refl m).withSelf _) rfl

end MemTable

theorem replay_append (entries : List Entry) (entry : Entry) :
    replay (entries ++ [entry]) = (replay entries).insert entry.key entry := by
  rw [replay, List.foldl_append]
  rfl

theorem get?_replay_eq_none_iff (entries : List Entry) (key : String) :
    (replay entries).get? key = none ↔ key ∉ entries.map Entry.key := by
  induction entries using List.reverseRecOn with
  | nil => simp [replay]
  | append_singleton entries entry ih =>
    rw [replay_append, SortedMap.get?_insert, List.map_append]
    by_cases hkey : key = entry.key
    . simp [hkey]
    . simpa [hkey] using ih

theorem inner_foldl_processed (entries : List Entry) (memtable : MemTable) :
    (entries.foldl (MemTable.processed c) memtable).inner
      = entries.foldl (fun m entry => m.insert entry.key entry) memtable.inner := by
  induction entries generalizing memtable with
  | nil => rfl
  | cons entry entries ih => rw [List.foldl_cons, ih, List.foldl_cons]; rfl

theorem inner_foldl_processed_new (entries : List Entry) :
    (entries.foldl (MemTable.processed c) .new).inner = replay entries :=
  inner_foldl_processed entries .new

theorem stored_foldl_processed {entries : List Entry} (h : ∀ entry ∈ entries, Writable c.toCodec entry)
    {memtable : MemTable} (hstored : memtable.Stored c) :
    (entries.foldl (MemTable.processed c) memtable).Stored c :=
  MemTable.Holds.foldl_processed h hstored

theorem wp_writeEntries {entries : List Entry}
    (hentries : ∀ entry ∈ entries, Serializable c.toCodec entry)
    {Q : BloomFilter → Machine Call Disk File → Prop}
    {E : Failure Error → Machine Call Disk File → Prop} {m : Machine Call Disk File}
    {old : Contents} {filter : BloomFilter} (hold : m.disk.get? m.self.path = some old)
    (hpos : m.self.pos = old.length)
    (hok : ∀ m' new, Extends m m' → new.bytes = old.bytes ++ encodedAll c.toCodec entries →
      m'.disk = m.disk.write m.self.path new → m'.self = ⟨m.self.path, new.length⟩ →
      Q (entries.foldl (fun filter entry => filter.insert c (bytesOf entry.key)) filter) m')
    (hfail : ∀ e m' new b, Extends m m' → new.bytes = old.bytes ++ b →
      b <+: encodedAll c.toCodec entries → m'.disk = m.disk.write m.self.path new →
      (e = .fault ∨ e = .raised .fileTooLarge) → E e m') :
    wp T (MemTable.writeEntries c entries filter) Q E m := by
  induction entries generalizing m old filter with
  | nil =>
    apply wp_pure
    apply hok m old (Extends.refl m)
    . simp
    . rw [Disk.write_self hold]
    . rw [← hpos]
  | cons entry entries ih =>
    unfold MemTable.writeEntries
    rw [List.foldlM_cons]
    apply wp_bind
    apply wp_bind
    have hread : m.disk.read m.self.path = old := by
      rw [Disk.read, hold]
      rfl
    apply wp_headerWrite (hentries entry List.mem_cons_self) hread
    . exact hold
    . intro m1 new1 hm1 hnew1 hdisk1 hself1
      apply wp_pure
      have hold1 : m1.disk.get? m1.self.path = some new1 := by
        rw [hdisk1, hself1, Disk.get?_write, if_pos rfl]
      apply ih (fun e he => hentries e (List.mem_cons_of_mem _ he)) hold1
      . rw [hself1]
      . intro m' new hm' hnew hdisk hself
        rw [hself1] at hdisk hself
        rw [hdisk1, Disk.write_write] at hdisk
        apply hok m' new (hm1.trans hm') _ hdisk hself
        rw [hnew, hnew1, encodedAll_cons, List.append_assoc]
      . intro e m' new b hm' hnew hb hdisk he
        rw [hself1, hdisk1, Disk.write_write] at hdisk
        apply hfail e m' new (encoded c.toCodec entry ++ b) (hm1.trans hm') _ _ hdisk he
        . rw [hnew, hnew1, List.append_assoc]
        . rw [encodedAll_cons]
          exact (List.prefix_append_right_inj _).mpr hb
    . intro e m' new b hm' hnew hb _ hdisk _ he
      apply hfail e m' new b hm' hnew _ hdisk he
      rw [encodedAll_cons]
      exact hb.trans (List.prefix_append _ _)

theorem ofKeys_eq (entries : List Entry) :
    BloomFilter.ofKeys c (entries.map Entry.key)
      = entries.foldl (fun filter entry => filter.insert c (bytesOf entry.key))
          (.new (entries.length * 10)) := by
  rw [BloomFilter.ofKeys, List.foldl_map, List.length_map]

theorem wp_writeTable {memtable : MemTable} (hstored : memtable.Holds (Serializable c.toCodec))
    {Q : Unit → Machine Call Disk File → Prop} {E : Failure Error → Machine Call Disk File → Prop}
    {m : Machine Call Disk File} (hold : m.disk.get? m.self.path = some .empty)
    (hpos : m.self.pos = 0)
    (hok : ∀ m' new, Extends m m' → new.bytes = image c memtable.values →
      memtable.len * 10 < 2 ^ 32 → m'.disk = m.disk.write m.self.path new → Q () m')
    (hfail : ∀ e m' new, Extends m m' → new.bytes <+: image c memtable.values →
      m'.disk = m.disk.write m.self.path new →
      (e = .fault ∨ e = .raised .fileTooLarge ∨ 2 ^ 32 ≤ memtable.len * 10) → E e m') :
    wp T (memtable.writeTable c) Q E m := by
  have hlen := memtable.length_values
  have hfilter := ofKeys_eq (c := c) memtable.values
  have himage : image c memtable.values = encodedAll c.toCodec memtable.values
      ++ ((BloomFilter.ofKeys c (memtable.values.map Entry.key)).inner
        ++ toLe 4 (memtable.len * 10)) := by
    rw [image, BloomFilter.footer, BloomFilter.bitCount_ofKeys, List.length_map, hlen]
  have hself : m.disk.write m.self.path .empty = m.disk := Disk.write_self hold
  unfold MemTable.writeTable
  apply wp_bind
  by_cases hmul : memtable.len * 10 < 2 ^ 64
  . apply wp_context (checkedMul_eq_some hmul)
    apply wp_bind
    apply wp_writeEntries hstored hold hpos
    . intro m1 new1 hm1 hnew1 hdisk1 hself1
      have hnew1 : new1.bytes = encodedAll c.toCodec memtable.values := hnew1
      rw [← hlen, ← hfilter]
      have hread1 : m1.disk.read m1.self.path = new1 := by
        rw [hdisk1, hself1, Disk.read_write, if_pos rfl]
      apply wp_bind
      apply wp_writeAll hread1 (by rw [hself1])
      . intro m2 new2 hm2 hnew2 hdisk2 hself2
        rw [hself1, hdisk1, Disk.write_write] at hdisk2
        rw [hself1] at hself2
        rw [hnew1] at hnew2
        split
        . next hlong =>
          rw [hlen] at hlong
          apply wp_raise
          apply hfail _ m2 new2 (hm1.trans hm2) _ hdisk2 (Or.inr (Or.inr hlong))
          rw [hnew2, himage, ← List.append_assoc]
          apply List.prefix_append
        . next hshort =>
          rw [hlen] at hshort ⊢
          have hread2 : m2.disk.read m2.self.path = new2 := by
            rw [hdisk2, hself2, Disk.read_write, if_pos rfl]
          apply wp_bind
          apply wp_writeAll hread2 (by rw [hself2])
          . intro m3 new3 hm3 hnew3 hdisk3 hself3
            rw [hself2, hdisk2, Disk.write_write] at hdisk3
            have hdone : new3.bytes = image c memtable.values := by
              rw [hnew3, hnew2, himage, List.append_assoc]
            apply wp_syncAll
            . intro m' hm' _
              apply hok m' new3 (hm1.trans (hm2.trans (hm3.trans hm'.later))) hdone (by omega)
              rw [hm'.disk_eq, hdisk3]
            . intro m' hm' _
              apply hfail _ m' new3 (hm1.trans (hm2.trans (hm3.trans hm'.later))) _ _ (Or.inl rfl)
              . rw [hdone]
              . rw [hm'.disk_eq, hdisk3]
          . intro e m' new b hm' hnew hb _ hdisk _ he
            rw [hself2, hdisk2, Disk.write_write] at hdisk
            apply hfail e m' new (hm1.trans (hm2.trans hm')) _ hdisk (he.imp id Or.inl)
            rw [hnew, hnew2, himage, List.append_assoc, List.prefix_append_right_inj,
              List.prefix_append_right_inj]
            exact hb
      . intro e m' new b hm' hnew hb _ hdisk _ he
        rw [hself1, hdisk1, Disk.write_write] at hdisk
        apply hfail e m' new (hm1.trans hm') _ hdisk (he.imp id Or.inl)
        rw [hnew, hnew1, himage, List.prefix_append_right_inj]
        exact hb.trans (List.prefix_append _ _)
    . intro e m' new b hm' hnew hb hdisk he
      apply hfail e m' new hm' _ hdisk (he.imp id Or.inl)
      have hnew : new.bytes = b := hnew
      rw [hnew, himage]
      exact hb.trans (List.prefix_append _ _)
  . unfold context checkedMul u64Max
    rw [if_neg (by omega)]
    apply wp_raise
    apply hfail _ m .empty (Extends.refl m) List.nil_prefix hself.symm
    exact Or.inr (Or.inr (by omega))

-- the disks that a failed `flush_to` leaves behind
inductive FlushLeft (c : Crates) (memtable : MemTable) (d : Disk) : Disk → Prop where
  | unchanged : FlushLeft c memtable d d
  | ticked : FlushLeft c memtable d d.tick
  | part (new : Contents) (h : new.bytes <+: image c memtable.values) :
    FlushLeft c memtable d (d.tick.write (.sstable (nextName d)) new)

-- the disks that a `flush_to` that succeeds leaves behind
inductive FlushDone (c : Crates) (memtable : MemTable) (d : Disk) : Disk → Prop where
  | empty (h : memtable.isEmpty = true) : FlushDone c memtable d d
  | written (new : Contents) (h : memtable.isEmpty = false)
    (hnew : new.bytes = image c memtable.values) (hsmall : memtable.len * 10 < 2 ^ 32) :
    FlushDone c memtable d (d.tick.write (.sstable (nextName d)) new)

/--
`flush_to` adds a file with the image of the memtable. If it fails, it has added a part of it at most
and has kept the memtable.
-/
theorem wp_flushTo {Q : Unit → Machine Call Disk MemTable → Prop}
    {E : Failure Error → Machine Call Disk MemTable → Prop} {m : Machine Call Disk MemTable}
    (hstored : m.self.Holds (Serializable c.toCodec))
    (hempty : m.self.isEmpty = true → Q () m)
    (hok : ∀ m' new, Extends m m' → m.self.isEmpty = false → new.bytes = image c m.self.values →
      m.self.len * 10 < 2 ^ 32 → m'.disk = m.disk.tick.write (.sstable (nextName m.disk)) new →
      m'.self = .new → Q () m')
    (hfail : ∀ e m', Extends m m' → FlushLeft c m.self m.disk m'.disk → m'.self = m.self →
      (e = .fault ∨ e = .raised .fileTooLarge ∨ 2 ^ 32 ≤ m.self.len * 10) → E e m') :
    wp T (MemTable.flushTo c) Q E m := by
  unfold MemTable.flushTo
  apply wp_bind
  apply wp_getSelf
  split
  . next h => exact wp_pure (hempty h)
  . next hnonempty =>
    have hnonempty : m.self.isEmpty = false := by simpa using hnonempty
    apply wp_bind
    apply wp_createDirAll
    . intro m1 hm1 hself1
      apply wp_bind
      apply wp_now
      . intro m2 hm2 hdisk2 hself2
        have hdisk2 : m2.disk = m.disk.tick := by rw [hdisk2, hm1.disk_eq]; rfl
        have hname : MemTable.fileName (m1.disk.clock m1.disk.ticks) = nextName m.disk := by
          rw [hm1.disk_eq]
          rfl
        rw [hself1] at hself2
        have hm2 := hm1.later.trans hm2
        rw [hname]
        apply wp_bind
        apply wp_createFile
        . intro m3 hm3 hdisk3 hself3
          rw [if_pos rfl, hdisk2] at hdisk3
          rw [hself2] at hself3
          have hm3 := hm2.trans hm3
          apply wp_bind
          apply wp_on
          apply wp_writeTable hstored
          . rw [Machine.withSelf_disk, Machine.withSelf_self, hdisk3, Disk.get?_write, if_pos rfl]
          . rfl
          . intro m' new hm' himage hsmall hdisk
            rw [Machine.withSelf_disk, Machine.withSelf_self, hdisk3, Disk.write_write] at hdisk
            apply wp_setSelf
            apply hok _ new _ hnonempty himage hsmall hdisk rfl
            exact ((hm3.trans hm'.of_withSelf).withSelf _).withSelf _
          . intro e m' new hm' himage hdisk he
            rw [Machine.withSelf_disk, Machine.withSelf_self, hdisk3, Disk.write_write] at hdisk
            apply hfail e _ ((hm3.trans hm'.of_withSelf).withSelf _) _ hself3 he
            rw [Machine.withSelf_disk, hdisk]
            exact FlushLeft.part new himage
        . intro m3 hm3 hself3
          apply hfail _ m3 (hm2.trans hm3.later) _ (hself3.trans hself2) (Or.inl rfl)
          rw [hm3.disk_eq, hdisk2]
          exact FlushLeft.ticked
      . intro m2 hm2 hdisk2 hself2
        have hdisk2 : m2.disk = m.disk.tick := by rw [hdisk2, hm1.disk_eq]; rfl
        apply hfail _ m2 (hm1.later.trans hm2) _ (hself2.trans hself1) (Or.inl rfl)
        rw [hdisk2]
        exact FlushLeft.ticked
    . intro m1 hm1 hself1
      apply hfail _ m1 hm1.later _ hself1 (Or.inl rfl)
      rw [hm1.disk_eq]
      exact FlushLeft.unchanged

theorem readNext_le {contents : Contents} {pos : Nat} (h : pos ≤ contents.length) :
    (readNext c.toCodec contents pos).2 ≤ contents.length := by
  unfold readNext
  split
  . exact h
  . split
    . exact Nat.le_refl _
    . next hscan => exact le_of_scan hscan

theorem run_fromFileLoop {contents : Contents} (fuel : Nat) {memtable : MemTable}
    (hstored : memtable.Holds (Serializable c.toCodec)) {m : Machine Call Disk File} (hm : m.Faultless)
    (hread : m.disk.read m.self.path = contents) (hpos : m.self.pos ≤ contents.length)
    (hfuel : (recordsFrom c contents contents.length m.self.pos).length < fuel)
    (hentries : ∀ entry ∈ recordsFrom c contents contents.length m.self.pos,
      Serializable c.toCodec entry) :
    ∃ m', (MemTable.fromFileLoop c fuel memtable).run m
        = .ok ((recordsFrom c contents contents.length m.self.pos).foldl (MemTable.processed c)
          memtable) m'
      ∧ Reads m m' ∧ m'.self.path = m.self.path := by
  induction fuel generalizing memtable m with
  | zero => exact absurd hfuel (Nat.not_lt_zero _)
  | succ fuel ih =>
    have hnext := Answers.of_reading (reading_headerReadNext (c := c.toCodec) contents m.self.pos)
      hread
    rcases hnext.run hm rfl rfl with ⟨m1, hrun1, hm1, hself1⟩
    unfold MemTable.fromFileLoop
    rw [run_bind_of_ok (run_attempt_of_ok hrun1)]
    cases hentry : (readNext c.toCodec contents m.self.pos).1 with
    | none =>
      rw [recordsFrom_of_readNext_none hentry]
      exact ⟨m1, rfl, hm1, by rw [hself1]⟩
    | some entry =>
      have hcons := recordsFrom_of_readNext_some hpos hentry
      rw [hcons] at hfuel hentries ⊢
      have hserializable := hentries entry List.mem_cons_self
      have hm1' := hm1.later.faultless.mpr hm
      have hprocess := Answers.on (s := m1.self)
        (MemTable.answers_process (d := m1.disk) hstored hserializable)
      rcases hprocess.run hm1' rfl rfl with ⟨m2, hrun2, hm2, hself2⟩
      have hpath2 : m2.self.path = m.self.path := by rw [hself2, hself1]
      have hpos2 : m2.self.pos = (readNext c.toCodec contents m.self.pos).2 := by
        rw [hself2, hself1]
      have hrest := ih (m := m2) (hstored.processed (c := c) hserializable)
        (hm2.later.faultless.mpr hm1')
        (by rw [hm2.disk_eq, hm1.disk_eq, hpath2, hread])
        (by rw [hpos2]; exact readNext_le hpos)
        (by rw [hpos2]; exact Nat.lt_of_succ_lt_succ hfuel)
        (by rw [hpos2]; exact fun e he => hentries e (List.mem_cons_of_mem _ he))
      rcases hrest with ⟨m', hrun', hm', hpath'⟩
      rw [hpos2] at hrun'
      refine ⟨m', ?_, hm1.trans (hm2.trans hm'), hpath'.trans hpath2⟩
      dsimp only
      rw [run_bind_of_ok hrun2]
      exact hrun'

def replayed (c : Crates) (contents : Contents) : List Entry :=
  recordsFrom c contents contents.length 0

theorem run_fromFile {m : Machine Call Disk File} (hm : m.Faultless)
    (hentries : ∀ entry ∈ replayed c (m.disk.read m.self.path), Serializable c.toCodec entry) :
    ∃ m', (MemTable.fromFile c).run m
        = .ok ((replayed c (m.disk.read m.self.path)).foldl (MemTable.processed c) .new) m'
      ∧ Reads m m' ∧ m'.self.path = m.self.path := by
  have hstart : Reading (seek (.start 0)) (m.disk.read m.self.path) m.self.pos (.ok (), 0) :=
    Reading.seek_start 0
  have hseek := Answers.of_reading (d := m.disk) hstart rfl
  rcases hseek.run hm rfl rfl with ⟨m1, hrun1, hm1, hself1⟩
  have hread : m1.disk.read m1.self.path = m.disk.read m.self.path := by
    rw [hm1.disk_eq, hself1]
  have hpos : m1.self.pos = 0 := by rw [hself1]
  have hloop := run_fromFileLoop (c := c) ((m1.disk.read m1.self.path).length + 2)
    (MemTable.holds_new _) (hm1.later.faultless.mpr hm) rfl (by rw [hpos]; exact Nat.zero_le _)
    (Nat.lt_of_le_of_lt (length_recordsFrom_le _ _ _) (by omega))
    (by rw [hread, hpos]; exact hentries)
  rcases hloop with ⟨m', hrun', hm', hpath'⟩
  refine ⟨m', ?_, hm1.trans hm', ?_⟩
  . unfold MemTable.fromFile
    rw [run_bind_of_ok hrun1]
    rw [hpos, hread] at hrun'
    rw [← hread]
    rw [← hread] at hrun'
    exact hrun'
  . rw [hpath', hself1]

end Chickadee
