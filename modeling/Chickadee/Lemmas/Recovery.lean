import Chickadee.Lemmas.Run

/-!
This module contains the invariant of a store whose calls may fail and whose process may die: what the
log answers now, and what a log answers that is opened on the disk as it is. The WAL may hold torn
records, and records of writes that have failed.
-/

namespace Chickadee

open Faulty Faulty.Io Layers

variable {σ : Type} {T : Disk → Prop} {c : Crates}

/--
Memtable and files show `live`, whatever is in the WAL.
-/
structure Live (c : Crates) (live : Spec) (d : Disk) (log : Log) : Prop where
  named : Named d
  path_eq : log.walFile.path = .wal
  stored : log.memtable.Stored c
  scans : ∀ contents ∈ files d, TableEntries c (fileScan c contents)
  mem : ∀ key entry, log.memtable.get key = some entry → live key = Log.visible entry
  shows : ∀ key, log.memtable.get key = none → Shows Entry.isSet (layers c d) key (live key)

theorem Strict.of_write_wal {d : Disk} {wal : Contents} (h : Strict c (d.write .wal wal)) :
    Strict c d :=
  ⟨h.clock, h.records⟩

theorem FlushDone.write_wal {memtable : MemTable} {d d' : Disk} (h : FlushDone c memtable d d')
    (wal : Contents) : FlushDone c memtable (d.write .wal wal) (d'.write .wal wal) := by
  cases h with
  | empty hempty => exact FlushDone.empty hempty
  | written new hnonempty hnew hsmall =>
    exact FlushDone.written (d := d.write .wal wal) new hnonempty hnew hsmall

theorem FlushLeft.write_wal {memtable : MemTable} {d d' : Disk} (h : FlushLeft c memtable d d')
    (wal : Contents) : FlushLeft c memtable (d.write .wal wal) (d'.write .wal wal) := by
  cases h with
  | unchanged => exact FlushLeft.unchanged
  | ticked => exact FlushLeft.ticked (d := d.write .wal wal)
  | part new hnew => exact FlushLeft.part (d := d.write .wal wal) new hnew

theorem FlushDone.wal_eq {memtable : MemTable} {d d' : Disk} (h : FlushDone c memtable d d') :
    d'.wal = d.wal := by
  cases h <;> rfl

theorem FlushLeft.wal_eq {memtable : MemTable} {d d' : Disk} (h : FlushLeft c memtable d d') :
    d'.wal = d.wal := by
  cases h <;> rfl

theorem Leftover.write_wal {d d' : Disk} (h : Leftover c d d') (wal : Contents) :
    Leftover c (d.write .wal wal) (d'.write .wal wal) :=
  ⟨rfl, h.named, h.files_eq⟩

theorem Deleting.write_wal {rest : List Contents} {d d' : Disk} (h : Deleting c rest d d')
    (wal : Contents) : Deleting c rest (d.write .wal wal) (d'.write .wal wal) :=
  ⟨rfl, h.named, h.suffix, h.files_eq⟩

theorem exists_wal {entry : Entry} (h : Writable c.toCodec entry) :
    ∃ wal : Contents, wal.bytes = encodedAll c.toCodec [entry] := by
  rcases h with ⟨payload, h⟩
  have hlen : (encodedAll c.toCodec [entry]).length = headerLen + payload.length := by
    rw [encodedAll_cons, encodedAll_nil, List.append_nil, encoded_eq h, length_frame]
  have hlt := h.lt
  have hbound : (encodedAll c.toCodec [entry]).length ≤ maxFileLen := by
    rw [hlen]
    unfold headerLen maxFileLen
    omega
  exact ⟨⟨encodedAll c.toCodec [entry], hbound⟩, rfl⟩

namespace Live

variable {live : Spec} {d d' : Disk} {log log' : Log}

theorem lookup_eq (h : Live c live d log) (key : String) :
    lookup log.memtable (layers c d) key = live key := by
  unfold lookup
  cases hget : log.memtable.get key with
  | some entry => exact (h.mem key entry hget).symm
  | none => exact (h.shows key hget).found_eq

theorem inv (h : Live c live d log) (key : String) :
    ∃ wal, Inv c {key} live (d.write .wal wal) log := by
  cases hget : log.memtable.get key with
  | none =>
    refine ⟨.empty, h.named, h.path_eq, ⟨[], by simp, rfl, ?_, ?_⟩, h.stored, h.scans, ?_⟩
    . intro _ _ entry hentry
      contradiction
    . rintro _ rfl entry hentry
      rw [hget] at hentry
      contradiction
    . rintro _ rfl
      exact h.shows _
  | some entry =>
    have hkey : entry.key = key := MemTable.key_of_get hget
    have hreplay : (replay [entry]).get? key = some entry := by
      rw [← List.nil_append [entry], replay_append, SortedMap.get?_insert, if_pos hkey.symm]
    have hentry : Writable c.toCodec entry := by
      apply h.stored
      rw [MemTable.mem_values_iff, hkey]
      exact hget
    rcases exists_wal hentry with ⟨wal, hwal⟩
    refine ⟨wal, h.named, h.path_eq, ⟨[entry], ?_, hwal, ?_, ?_⟩, h.stored, h.scans, ?_⟩
    . intro e he
      rw [List.mem_singleton.mp he]
      exact hentry
    . rintro _ rfl e he
      rw [hreplay] at he
      cases he
      exact h.mem _ entry hget
    . rintro _ rfl e he
      rw [hget] at he
      cases he
      exact hreplay
    . rintro _ rfl
      exact h.shows _

theorem of_inv (h : ∀ key, ∃ wal, Inv c {key} live (d.write .wal wal) log) : Live c live d log := by
  rcases h "" with ⟨wal, hinv⟩
  refine ⟨hinv.named, hinv.path_eq, hinv.stored, hinv.scans, ?_, ?_⟩
  . intro key entry hget
    rcases h key with ⟨wal, hinv⟩
    rcases hinv.wal with ⟨entries, -, -, hspec, hsub⟩
    exact hspec key rfl entry (hsub key rfl entry hget)
  . intro key hget
    rcases h key with ⟨wal, hinv⟩
    exact hinv.shows key rfl hget

theorem map (h : Live c live d log) (hstep : ∀ key wal, Inv c {key} live (d.write .wal wal) log →
    Inv c {key} live (d'.write .wal wal) log') : Live c live d' log' := by
  apply of_inv
  intro key
  rcases h.inv key with ⟨wal, hinv⟩
  exact ⟨wal, hstep key wal hinv⟩

theorem write_wal (h : Live c live d log) (wal : Contents) : Live c live (d.write .wal wal) log :=
  ⟨h.named, h.path_eq, h.stored, h.scans, h.mem, h.shows⟩

theorem congr (h : Live c live d log) (hpath : log'.walFile.path = .wal)
    (hmemtable : log'.memtable = log.memtable) : Live c live d log' :=
  h.map fun _ _ hinv => hinv.congr hpath hmemtable

theorem flushDone (h : Live c live d log) (hdone : FlushDone c log.memtable d d')
    (hsound : Sound c d') (hpath : log'.walFile.path = .wal) (hmemtable : log'.memtable = .new) :
    Live c live d' log' :=
  h.map fun _ wal hinv =>
    (hinv.flushDone (hdone.write_wal wal) ⟨hsound.clock, hsound.footers⟩ hpath hmemtable).1

theorem filesFrom (h : Live c live d log) (hdone : FlushDone c log.memtable d d')
    (hsound : Sound c d') (hpath : log'.walFile.path = .wal) (hmemtable : log'.memtable = .new) :
    FilesFrom c log.memtable d d' := by
  rcases h.inv "" with ⟨wal, hinv⟩
  exact (hinv.flushDone (hdone.write_wal wal) ⟨hsound.clock, hsound.footers⟩ hpath hmemtable).2

theorem flushLeft (h : Live c live d log) (hleft : FlushLeft c log.memtable d d')
    (hstrict : Strict c d') : Live c live d' log :=
  h.map fun _ wal hinv => hinv.flushLeft (hleft.write_wal wal) ⟨hstrict.clock, hstrict.records⟩

theorem leftover (h : Live c live d log) (hleft : Leftover c d d') (hstrict : Strict c d') :
    Live c live d' log :=
  h.map fun _ wal hinv => hinv.leftover (hleft.write_wal wal) ⟨hstrict.clock, hstrict.records⟩

theorem deleting {rest : List Contents} (h : Live c live d log) (hdeleting : Deleting c rest d d')
    (hclean : FootersClean c d') (hhidden : rest = [] ∨ NoneHidden c Set.univ d log) :
    Live c live d' log := by
  apply h.map
  intro key wal hinv
  apply hinv.deleting (hdeleting.write_wal wal) hclean
  cases hhidden with
  | inl hnil =>
    rw [hnil]
    intro _ _ _ _
    exact Shows.nil
  | inr hhidden =>
    apply NoneHidden.shows _ hinv hdeleting.suffix.subset
    intro key' _ hget
    exact hhidden key' trivial hget

theorem noOldSet (h : Live c live d log) (hold : NoOldSet c Set.univ live d)
    (hfiles : FilesFrom c log.memtable d d') : NoOldSet c Set.univ live d' := by
  intro key _
  rcases h.inv key with ⟨wal, hinv⟩
  have hold : NoOldSet c {key} live (d.write .wal wal) := fun key' _ => hold key' trivial
  exact hold.flush hinv hfiles key rfl

theorem noneHidden (h : Live c live d log) (hold : NoOldSet c Set.univ live d) :
    NoneHidden c Set.univ d log := by
  intro key _
  rcases h.inv key with ⟨wal, hinv⟩
  have hold : NoOldSet c {key} live (d.write .wal wal) := fun key' _ => hold key' trivial
  exact hold.noneHidden hinv key rfl

end Live

theorem replayed_empty (c : Crates) : replayed c .empty = [] :=
  @replayed_encodedAll c [] (by simp) .empty rfl

-- what a replay of `entries` shows above files that show `live`
def recovered (entries : List Entry) (live : Spec) : Spec :=
  fun key =>
    match (replay entries).get? key with
    | some entry => Log.visible entry
    | none => live key

theorem recovered_nil (live : Spec) : recovered [] live = live := rfl

theorem recovered_append (entries : List Entry) (entry : Entry) (live : Spec) :
    recovered (entries ++ [entry]) live = (recovered entries live).write entry := by
  funext key
  unfold recovered Spec.write
  rw [replay_append, SortedMap.get?_insert]
  by_cases hkey : key = entry.key
  . rw [if_pos hkey, if_pos hkey]
  . rw [if_neg hkey, if_neg hkey]

theorem write_recovered (entries : List Entry) (entry : Entry) (live : Spec) :
    (recovered entries (live.write entry)).write entry = (recovered entries live).write entry := by
  funext key
  unfold recovered Spec.write
  by_cases hkey : key = entry.key
  . rw [if_pos hkey, if_pos hkey]
  . simp only [if_neg hkey]

theorem run_reopen_replayed {m : Store} (hm : m.Faultless)
    (hentries : ∀ entry ∈ replayed c m.disk.wal, Serializable c.toCodec entry) :
    ∃ m', (Log.reopen c).run m = .ok () m' ∧ m'.disk = m.disk ∧ m'.self.walFile.path = .wal
      ∧ m'.self.memtable = (replayed c m.disk.wal).foldl (MemTable.processed c) .new := by
  rcases run_new hm hentries with ⟨log', m1, hrun, hm1, -, hpath, hmemtable, -⟩
  refine ⟨m1.withSelf log', ?_, hm1.disk_eq, hpath, hmemtable⟩
  unfold Log.reopen
  rw [run_bind_of_ok hrun]
  rfl

/--
The log shows `live`, a log that is opened on the disk as it is shows `durable`.
-/
structure Recoverable (c : Crates) (live durable : Spec) (d : Disk) (log : Log) : Prop where
  current : Live c live d log
  writable : ∀ entry ∈ replayed c d.wal, Writable c.toCodec entry
  covered : ∀ key, (replay (replayed c d.wal)).get? key = none → log.memtable.get key = none
  durable_eq : durable = recovered (replayed c d.wal) live

namespace Recoverable

variable {live durable : Spec}

theorem get_eq {m : Store} (h : Recoverable c live durable m.disk m.self) (key : String) :
    m.get c key = some (live key) := by
  rw [m.get_eq_lookup, h.current.lookup_eq]

theorem reopened {d : Disk} {log log' : Log} (h : Recoverable c live durable d log)
    (hpath : log'.walFile.path = .wal)
    (hmemtable : log'.memtable = (replayed c d.wal).foldl (MemTable.processed c) .new) :
    Recoverable c durable durable d log' := by
  have hget : ∀ key, log'.memtable.get key = (replay (replayed c d.wal)).get? key := by
    intro key
    rw [MemTable.get, hmemtable, inner_foldl_processed_new]
  have hdurable : ∀ key, durable key = recovered (replayed c d.wal) live key := by
    intro key
    rw [h.durable_eq]
  unfold recovered at hdurable
  refine ⟨⟨h.current.named, hpath, ?_, h.current.scans, ?_, ?_⟩, h.writable, ?_, ?_⟩
  . rw [hmemtable]
    exact stored_foldl_processed h.writable MemTable.stored_new
  . intro key entry hentry
    rw [hget] at hentry
    rw [hdurable, hentry]
  . intro key hnone
    rw [hget] at hnone
    rw [hdurable, hnone]
    exact h.current.shows key (h.covered key hnone)
  . intro key hnone
    rw [hget, hnone]
  . funext key
    unfold recovered
    cases hreplay : (replay (replayed c d.wal)).get? key with
    | none => rfl
    | some entry => rw [hdurable, hreplay]

theorem getReopened_eq {m : Store} {log : Log} (h : Recoverable c live durable m.disk log)
    (key : String) :
    m.getReopened c key = some (durable key) := by
  let log' : Log := { Log.closed with
    memtable := (replayed c m.disk.wal).foldl (MemTable.processed c) .new }
  have hopened : Recoverable c durable durable m.disk log' := h.reopened rfl rfl
  rw [m.getReopened_eq_lookup fun entry hentry => (h.writable entry hentry).serializable,
    ← hopened.current.lookup_eq key]

theorem run_reopen {m : Store} (h : Recoverable c live durable m.disk m.self) (hm : m.Faultless) :
    ∃ m', (Log.reopen c).run m = .ok () m' ∧ Recoverable c durable durable m'.disk m'.self := by
  rcases run_reopen_replayed hm fun entry hentry => (h.writable entry hentry).serializable with
    ⟨m', hrun, hdisk, hpath, hmemtable⟩
  refine ⟨m', hrun, ?_⟩
  rw [hdisk]
  exact h.reopened hpath hmemtable

theorem of_live {d d' : Disk} {log log' : Log} (h : Recoverable c live durable d log)
    (hlive : Live c live d' log') (hwal : d'.wal = d.wal)
    (hmemtable : ∀ key, log.memtable.get key = none → log'.memtable.get key = none) :
    Recoverable c live durable d' log' := by
  refine ⟨hlive, ?_, ?_, ?_⟩
  . rw [hwal]
    exact h.writable
  . intro key hnone
    rw [hwal] at hnone
    exact hmemtable key (h.covered key hnone)
  . rw [hwal]
    exact h.durable_eq

theorem of_empty {d : Disk} {log : Log} (hlive : Live c live d log) (hwal : d.wal = .empty)
    (hmemtable : log.memtable = .new) : Recoverable c live live d log := by
  have hreplayed : replayed c d.wal = [] := by rw [hwal, replayed_empty]
  refine ⟨hlive, ?_, ?_, ?_⟩
  . rw [hreplayed]
    simp
  . intro key _
    rw [hmemtable]
    rfl
  . rw [hreplayed, recovered_nil]

theorem wp_flushTables {m : Machine Call Disk Log} (h : Recoverable c live durable m.disk m.self)
    (hT : ∀ d, T d → Strict c d) {Q : Unit → Machine Call Disk Log → Prop}
    {E : Failure Error → Machine Call Disk Log → Prop}
    (hok : ∀ m', Extends m m' → Recoverable c live live m'.disk m'.self →
      FilesFrom c m.self.memtable m.disk m'.disk → Q () m')
    (hfail : ∀ e m', Extends m m' → (Recoverable c live durable m'.disk m'.self
      ∨ Recoverable c live live m'.disk m'.self) → E e m') :
    wp T (Log.flushTables c) Q E m := by
  apply wp_conclude
  apply Chickadee.wp_flushTables h.current.path_eq h.current.stored.serializable
  . intro m' d' hm' hdone hdisk hpath hnew _ hm''
    have hstrict := hT _ hm''.1
    rw [hdisk] at hstrict
    have hlive := h.current.flushDone hdone hstrict.of_write_wal.sound hpath hnew
    apply hok m' hm'
    . rw [hdisk]
      exact of_empty (hlive.write_wal .empty) rfl hnew
    . have hfiles := h.current.filesFrom hdone hstrict.of_write_wal.sound hpath hnew
      rw [hdisk]
      exact hfiles
  . intro e m' hm' hleft hpath hmemtable _ hm''
    have hlive := (h.current.flushLeft hleft (hT _ hm''.1)).congr hpath hmemtable
    apply hfail e m' hm'
    apply Or.inl
    apply h.of_live hlive hleft.wal_eq
    intro key hnone
    rw [hmemtable]
    exact hnone
  . intro m' d' hm' hdone hdisk hpath hnew hm''
    have hstrict := hT _ hm''.1
    apply hfail .fault m' hm'
    cases hdisk with
    | inl heq =>
      rw [heq] at hstrict ⊢
      apply Or.inl
      apply h.of_live (h.current.flushDone hdone hstrict.sound hpath hnew) hdone.wal_eq
      intro key _
      rw [hnew]
      rfl
    | inr heq =>
      rw [heq] at hstrict ⊢
      have hlive := h.current.flushDone hdone hstrict.of_write_wal.sound hpath hnew
      exact Or.inr (of_empty (hlive.write_wal .empty) rfl hnew)

/--
A compaction changes nothing, and one that fails changes nothing, unless it stops while it removes the
files and one of them holds a value that has been deleted.
-/
theorem wp_compact {m : Machine Call Disk σ} {log : Log} (h : Recoverable c live durable m.disk log)
    (hT : ∀ d, T d → Strict c d) {Q : Unit → Machine Call Disk σ → Prop}
    {E : Failure Error → Machine Call Disk σ → Prop}
    (hok : ∀ m', Extends m m' → Recoverable c live durable m'.disk log → Q () m')
    (hfail : ∀ e m', Extends m m' → ((∀ name, m'.FailedAt (.removeFile name) →
      NoneHidden c Set.univ m.disk log) → Recoverable c live durable m'.disk log) → E e m') :
    wp T (compact c) Q E m := by
  apply wp_conclude
  apply Chickadee.wp_compact (fun d hd => (hT d hd).clock) h.current.named h.current.scans
  . intro m' hm' hdeleting hm''
    have hlive := h.current.deleting hdeleting (hT _ hm''.1).sound.footers (Or.inl rfl)
    exact hok m' hm' (h.of_live hlive hdeleting.wal_eq fun _ hnone => hnone)
  . intro e m' hm' hleft _ hm''
    apply hfail e m' hm'
    intro _
    have hlive := h.current.leftover hleft (hT _ hm''.1)
    exact h.of_live hlive hleft.wal_eq fun _ hnone => hnone
  . intro m' name hm' _ hdeleting hfailed hm''
    apply hfail .fault m' hm'
    intro hhidden
    have hlive := h.current.deleting hdeleting (hT _ hm''.1).sound.footers
      (Or.inr (hhidden name hfailed))
    exact h.of_live hlive hdeleting.wal_eq fun _ hnone => hnone

theorem wp_flush {m : Machine Call Disk Log} (h : Recoverable c live durable m.disk m.self)
    (hT : ∀ d, T d → Strict c d) {Q : Unit → Machine Call Disk Log → Prop}
    {E : Failure Error → Machine Call Disk Log → Prop}
    (hok : ∀ m', Extends m m' → Recoverable c live live m'.disk m'.self → Q () m')
    (hfail : ∀ e m', Extends m m' → ((∀ name, m'.FailedAt (.removeFile name) →
      NoOldSet c Set.univ live m.disk) → Recoverable c live durable m'.disk m'.self
        ∨ Recoverable c live live m'.disk m'.self) → E e m') :
    wp T (Log.flush c) Q E m := by
  unfold Log.flush
  apply wp_bind
  apply h.wp_flushTables hT
  . intro m1 hm1 hrec1 hfiles1
    apply wp_bind
    apply wp_getSelf
    split
    . apply wp_selfless selfless_compact
      apply hrec1.wp_compact hT
      . intro m' hm' hrec' hself'
        apply hok m' (hm1.trans hm')
        rw [hself']
        exact hrec'
      . intro e m' hm' hrec' hself'
        apply hfail e m' (hm1.trans hm')
        intro hold
        rw [hself']
        apply Or.inr
        apply hrec'
        intro name hfailed
        exact hrec1.current.noneHidden (h.current.noOldSet (hold name hfailed) hfiles1)
    . apply wp_pure
      exact hok m1 hm1 hrec1
  . intro e m' hm' hrec'
    exact hfail e m' hm' fun _ => hrec'

end Recoverable

end Chickadee
