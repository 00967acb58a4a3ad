import Chickadee.Impl.Concrete
import Chickadee.Lemmas.Compact
import Chickadee.Lemmas.Keeps

/-!
This module contains the names of the files: the clock alone gives them, so a new file has the greatest
name only where the clock is later than at the creation of every file that is left.
-/

namespace Chickadee

open Faulty Faulty.Io

def created? (step : Step Call Disk) : Option String :=
  match step.call with
  | .createFile (.sstable name) => some name
  | _ => none

theorem mem_created? {step : Step Call Disk} {name : String} :
    name ∈ created? step ↔ step.call = .createFile (.sstable name) := by
  unfold created?
  split
  . next name' hcall => simp [hcall]
  . next hcall =>
    constructor
    . intro h
      contradiction
    . intro h
      exact absurd h (hcall name)

-- every file is created under a name greater than all names of the directory
def Chronological (history : List (Step Call Disk)) : Prop :=
  ∀ step ∈ history, ∀ name ∈ created? step, ∀ older ∈ step.before.sstables.keys, older < name

-- every file is created at a time later than the earlier readings that name a file of the directory
def Forward (clock : Nat → Nat) (history : List (Step Call Disk)) : Prop :=
  ∀ step ∈ history, ∀ _name ∈ created? step, ∀ i < step.before.ticks - 1,
    MemTable.fileName (clock i) ∈ step.before.sstables.keys →
      clock i < clock (step.before.ticks - 1)

instance (history : List (Step Call Disk)) : Decidable (Chronological history) :=
  inferInstanceAs (Decidable (∀ step ∈ history, ∀ name ∈ created? step,
    ∀ older ∈ step.before.sstables.keys, older < name))

-- the last reading before the creation of a file names it, the ones before that name the other files
def Created (clock : Nat → Nat) (before : Disk) (name : String) : Prop :=
  ∃ t, before.ticks = t + 1 ∧ name = MemTable.fileName (clock t) ∧
    ∀ older ∈ before.sstables.keys, ∃ i < t, older = MemTable.fileName (clock i)

structure Dated (clock : Nat → Nat) (d : Disk) (history : List (Step Call Disk)) : Prop where
  clock_eq : d.clock = clock
  named : Named d
  created : ∀ step ∈ history, ∀ name ∈ created? step, Created clock step.before name

namespace Dated

variable {clock : Nat → Nat} {d d' : Disk} {history : List (Step Call Disk)} {call : Call}

theorem step (h : Dated clock d history) (hcall : Creationless call) (hclock : d'.clock = d.clock)
    (hnamed : Named d') : Dated clock d' (⟨call, d⟩ :: history) := by
  refine ⟨hclock.trans h.clock_eq, hnamed, ?_⟩
  intro step hstep name hname
  cases hstep with
  | head => exact absurd (mem_created?.mp hname) (hcall name)
  | tail _ hstep => exact h.created step hstep name hname

theorem readStable : ReadStable (Dated clock) :=
  fun _ _ _ hcall h => h.step hcall rfl h.named

theorem writeStable_wal : WriteStable (Dated clock) .wal :=
  ⟨readStable, fun _ _ _ _ hcall h => h.step hcall rfl h.named⟩

theorem writeStable_sstable {name : String} {t : Nat} (hname : name = MemTable.fileName (clock t)) :
    WriteStable (fun d history => Dated clock d history ∧ t < d.ticks) (.sstable name) := by
  constructor
  . rintro d history call hcall ⟨h, ht⟩
    exact ⟨readStable d history call hcall h, ht⟩
  . rintro d history call contents hcall ⟨h, ht⟩
    refine ⟨h.step hcall rfl ?_, ht⟩
    intro name' hname'
    cases (SortedMap.mem_keys_insert _ _ _ _).mp hname' with
    | inl heq =>
      rw [hname, ← h.clock_eq] at heq
      exact ⟨t, ht, heq⟩
    | inr hmem => exact h.named name' hmem

theorem tick (h : Dated clock d history) : Dated clock d.tick (⟨.now, d⟩ :: history) :=
  h.step (by simp [Creationless]) rfl h.named.tick

theorem nextName_eq (h : Dated clock d history) : nextName d = MemTable.fileName (clock d.ticks) := by
  rw [nextName, h.clock_eq]

theorem creating (h : Dated clock d history) :
    Dated clock d.tick (⟨.createFile (.sstable (nextName d)), d.tick⟩ :: ⟨.now, d⟩ :: history) := by
  refine ⟨h.clock_eq, h.named.tick, ?_⟩
  intro step hstep name hname
  cases hstep with
  | tail _ hstep => exact h.tick.created step hstep name hname
  | head =>
    cases mem_created?.mp hname
    refine ⟨d.ticks, rfl, h.nextName_eq, ?_⟩
    rw [← h.clock_eq]
    exact h.named

theorem create (h : Dated clock d history) (contents : Contents) :
    Dated clock (d.tick.write (.sstable (nextName d)) contents)
      (⟨.createFile (.sstable (nextName d)), d.tick⟩ :: ⟨.now, d⟩ :: history) :=
  ⟨h.clock_eq, h.named.write contents, h.creating.created⟩

end Dated

variable {σ : Type} {c : Crates} {clock : Nat → Nat}

theorem keeps_removeFile (name : String) :
    Keeps (Throughout (Dated clock)) (removeFile name : Os σ Unit) := by
  apply Keeps.syscall
  . intro m h
    split
    . exact Dated.step h (by simp [Creationless]) rfl (h.named.remove name)
    . exact Dated.step h (by simp [Creationless]) rfl h.named
  . intro m n h
    exact Dated.step h (by simp [Creationless]) rfl h.named

theorem keeps_flushTo : Keeps (Throughout (Dated clock)) (MemTable.flushTo c) := by
  apply Keeps.of_wp
  intro m hm
  unfold MemTable.flushTo
  apply wp_bind
  apply wp_getSelf
  split
  . apply wp_pure
    exact hm
  . apply wp_bind
    apply wp_keeps (keeps_readCall Dated.readStable (by simp [Creationless]) _) hm
    . intro _ m1 hm1
      apply wp_bind
      apply wp_syscall
      . intro ts d s hact
        cases hact
        apply wp_bind
        apply wp_syscall
        . intro file d s hact
          cases hact
          have hstable := Dated.writeStable_sstable hm1.nextName_eq
          apply wp_bind
          refine wp_keeps (keeps_onFile (keeps_writeTable hstable _)) ?_ ?_ ?_
          . exact ⟨hm1.create .empty, Nat.lt_succ_self _⟩
          . intro _ m3 hm3
            apply wp_setSelf
            exact hm3.1
          . intro _ m3 hm3
            exact hm3.1
        . simp
        . intro n _
          exact hm1.creating
      . simp
      . intro n _
        exact hm1.tick
    . intro _ m1 hm1
      exact hm1

theorem keeps_mergeLoop (fuel : Nat) (cursors : List Cursor) (memtable : MemTable)
    (seenKeys : List String) :
    Keeps (Throughout (Dated clock)) (mergeLoop c fuel cursors memtable seenKeys : Os σ _) := by
  induction fuel generalizing cursors memtable seenKeys with
  | zero => exact Keeps.raise _
  | succ fuel ih =>
    unfold mergeLoop
    dsimp only
    split
    . exact Keeps.pure _
    . refine Keeps.bind (keeps_mergeRound Dated.readStable _ _ _ _) ?_
      rintro ⟨cursors, memtable, seenKeys⟩
      dsimp only
      split
      . exact Keeps.bind (Keeps.map (keeps_on keeps_flushTo)) fun _ => ih _ _ _
      . exact Keeps.bind (Keeps.pure _) fun _ => ih _ _ _

theorem keeps_compact : Keeps (Throughout (Dated clock)) (compact c : Os σ Unit) := by
  unfold compact
  refine Keeps.bind (keeps_readCall Dated.readStable (by simp [Creationless]) _) fun names => ?_
  refine Keeps.bind (keeps_openTables Dated.readStable _) fun sstables => ?_
  refine Keeps.bind (keeps_firstEntries Dated.readStable _) fun cursors => ?_
  refine Keeps.bind (keeps_mergeLoop _ _ _ _) fun memtable => ?_
  have hdelete : Keeps (Throughout (Dated clock))
      ((sortNewestFirst names).forM removeFile : Os σ Unit) :=
    Keeps.forM keeps_removeFile _
  dsimp only
  split
  . exact Keeps.bind (keeps_on keeps_flushTo) fun _ => hdelete
  . exact hdelete

def OnWal (log : Log) : Prop :=
  log.walFile.path = .wal

def DatedLog (clock : Nat → Nat) (m : Store) : Prop :=
  Throughout (Dated clock) m ∧ OnWal m.self

namespace Log

theorem keeps_zoomWal {α : Type} {x : FileIo α} (hx : Keeps (OnFile (Dated clock) .wal) x) :
    Keeps (DatedLog clock) (zoomWal x) :=
  Keeps.zoom (fun _ h => h) hx fun _ _ _ h => h

theorem keeps_zoomMemtable {α : Type} {x : Os MemTable α} (hx : Keeps (Throughout (Dated clock)) x) :
    Keeps (DatedLog clock) (zoomMemtable x) :=
  Keeps.zoom (fun _ h => h.1) hx fun _ _ h h' => ⟨h', h.2⟩

theorem keeps_write (entry : Entry) : Keeps (DatedLog clock) (write c entry) :=
  Keeps.bind (keeps_zoomWal (keeps_headerWrite Dated.writeStable_wal _ _)) fun _ =>
    Keeps.bind (keeps_zoomWal (keeps_syncAll Dated.readStable)) fun _ =>
      Keeps.bind (keeps_zoomMemtable (keeps_process _)) fun _ => Keeps.pure _

theorem keeps_flushTables : Keeps (DatedLog clock) (flushTables c) := by
  have hcount : Keeps (DatedLog clock) (do
      let self ← getSelf
      setSelf { self with flushCount := saturatingAdd self.flushCount 1 } : Os Log Unit) := by
    intro m hm
    exact hm
  exact Keeps.bind (keeps_zoomMemtable keeps_flushTo) fun _ =>
    Keeps.bind (keeps_zoomWal (keeps_setLen Dated.writeStable_wal _)) fun _ =>
      Keeps.bind (keeps_zoomWal (keeps_seek Dated.readStable _)) fun _ => hcount

theorem keeps_compact : Keeps (DatedLog clock) (compact c) :=
  Keeps.selfless OnWal Chickadee.keeps_compact selfless_compact

theorem keeps_flush : Keeps (DatedLog clock) (flush c) := by
  refine Keeps.bind keeps_flushTables fun _ => Keeps.bind Keeps.getSelf fun self => ?_
  split
  . exact keeps_compact
  . exact Keeps.pure _

theorem keeps_maybeFlush : Keeps (DatedLog clock) (maybeFlush c) := by
  refine Keeps.bind Keeps.getSelf fun self => ?_
  split
  . exact keeps_flush
  . exact Keeps.pure _

theorem keeps_reopen : Keeps (DatedLog clock) (reopen c) := by
  have hcallDir : Creationless .createDirAll := by simp [Creationless]
  have hcallRead : Creationless .readDir := by simp [Creationless]
  have hdir : Keeps (DatedLog clock) createDirAll :=
    Keeps.selfless OnWal (keeps_readCall Dated.readStable hcallDir _)
      (selfless_readCall fun _ _ => rfl)
  have hread : Keeps (DatedLog clock) readDir :=
    Keeps.selfless OnWal (keeps_readCall Dated.readStable hcallRead _) selfless_readDir
  apply Keeps.of_wp
  intro m hm
  unfold reopen new
  apply wp_bind
  apply wp_bind
  refine wp_keeps hdir hm ?_ fun _ _ h => h
  intro _ m1 hm1
  apply wp_bind
  refine wp_keeps hdir hm1 ?_ fun _ _ h => h
  intro _ m2 hm2
  have hcreate : ∀ contents,
      Dated clock (m2.disk.write .wal contents) (⟨.createFile .wal, m2.disk⟩ :: m2.history) :=
    fun _ => hm2.1.step (by simp [Creationless]) rfl hm2.1.named
  apply wp_bind
  apply wp_syscall
  . intro walFile d s hact
    cases hact
    apply wp_bind
    apply wp_on
    refine wp_keeps (keeps_fromFile Dated.readStable) ⟨hcreate _, rfl⟩ ?_ ?_
    . intro memtable m3 hm3
      apply wp_bind
      refine wp_keeps hread ⟨hm3.1, hm2.2⟩ ?_ fun _ _ h => h
      intro names m4 hm4
      apply wp_pure
      apply wp_setSelf
      exact ⟨hm4.1, hm3.2⟩
    . intro _ m3 hm3
      exact ⟨hm3.1, hm2.2⟩
  . simp
  . intro _ _
    exact ⟨hm2.1.step (by simp [Creationless]) rfl hm2.1.named, hm2.2⟩

end Log

theorem keeps_exec (op : Op) : Keeps (DatedLog clock) (op.exec c) := by
  cases op with
  | write entry => exact Log.keeps_write entry
  | flush => exact Log.keeps_flush
  | maybeFlush => exact Log.keeps_maybeFlush
  | compact => exact Log.keeps_compact
  | reopen => exact Log.keeps_reopen

theorem keeps_runOps (ops : List Op) : Keeps (DatedLog clock) (runOps c ops) :=
  Keeps.forM keeps_exec ops

theorem datedLog_fresh (faults : Nat → Option Nat) :
    DatedLog clock ((Store.fresh clock).withFaults faults) :=
  ⟨⟨rfl, by simp [Named, Store.fresh, Machine.boot, Machine.withFaults, Disk.empty, SortedMap.keys,
    SortedMap.empty], by simp [Store.fresh, Machine.boot, Machine.withFaults]⟩, rfl⟩

/--
Whatever the clock says and whatever fails, the names are chronological in exactly the runs that create
no file at a time which is not later than the one in the name of a file that is left.
-/
theorem chronological_iff_forward (clock : Nat → Nat) (hclock : ∀ i, clock i < 10 ^ 20)
    (faults : Nat → Option Nat) (ops : List Op) :
    Chronological ((runOps c ops).run ((Store.fresh clock).withFaults faults)).machine.history
      ↔
    Forward clock ((runOps c ops).run ((Store.fresh clock).withFaults faults)).machine.history := by
  have hfresh : DatedLog clock ((Store.fresh clock).withFaults faults) := datedLog_fresh faults
  have hdated := (keeps_runOps (c := c) ops _ hfresh).1
  have hstep : ∀ (step : Step Call Disk) (name : String), Created clock step.before name →
      ((∀ older ∈ step.before.sstables.keys, older < name)
        ↔ ∀ i < step.before.ticks - 1, MemTable.fileName (clock i) ∈ step.before.sstables.keys →
          clock i < clock (step.before.ticks - 1)) := by
    rintro step _ ⟨t, hticks, rfl, hnamed⟩
    rw [hticks, Nat.add_sub_cancel]
    constructor
    . intro h i _ hmem
      exact (MemTable.fileName_lt_iff (hclock i) (hclock t)).mp (h _ hmem)
    . intro h older hmem
      rcases hnamed older hmem with ⟨i, hi, rfl⟩
      exact (MemTable.fileName_lt_iff (hclock i) (hclock t)).mpr (h i hi hmem)
  unfold Chronological Forward
  refine forall₂_congr fun step hmem => forall₂_congr fun name hname => ?_
  exact hstep step name (hdated.created step hmem name hname)

def twoFlushes : List Op :=
  [.reopen, .write (.set "a" "b"), .flush, .write (.set "a" "c"), .flush]

def twoFlushesStore (clock : Nat → Nat) : Store :=
  ((runOps Concrete.crates twoFlushes).run (Store.fresh clock)).machine

theorem chronological_iff_forward_twoFlushes :
    ¬Forward (fun _ => 7) (twoFlushesStore fun _ => 7).history := by
  intro h
  have hnot : ¬Chronological (twoFlushesStore fun _ => 7).history := by decide +kernel
  exact hnot ((chronological_iff_forward (fun _ => 7) (fun _ => by decide) (fun _ => none)
    twoFlushes).mpr h)

/--
The clock steps back between two flushes: the older value hides the newer one.
-/
theorem clock_steps_back :
    ¬Chronological (twoFlushesStore fun i => 10 - i).history
      ∧ (twoFlushesStore fun i => 10 - i).get Concrete.crates "a" = some (some (.set "a" "b")) := by
  constructor <;> decide +kernel

end Chickadee
