import Chickadee.Impl.Run
import Chickadee.Lemmas.Log

/-!
This module contains the runs of the store: what every operation does to the invariant, and that all
states that can be reached have it.
-/

namespace Chickadee

open Faulty Faulty.Io Layers

variable {T : Disk → Prop} {c : Crates} {keys : Set String} {spec : Spec} {m : Store}

namespace Store

theorem faultless_faultless (m : Store) : m.faultless.Faultless := by
  intro i
  rfl

theorem inv_faultless (h : Inv c keys spec m.disk m.self) :
    Inv c keys spec m.faultless.disk m.faultless.self := h

end Store

theorem extends_withFaults (m : Store) (faults : Nat → Option Nat) {m' : Store}
    (h : Extends (m.withFaults faults) m') {T : Disk → Prop} (hT : m'.Always T) : m.Always T :=
  h.always hT

theorem Store.get_eq_lookup (m : Store) (key : String) :
    m.get c key = some (lookup m.self.memtable (layers c m.disk) key) := by
  have hanswers := answers_get (c := c) m.faultless.disk m.faultless.self key
  rcases hanswers.run m.faultless_faultless rfl rfl with ⟨m', hrun, -⟩
  unfold Store.get
  rw [hrun]
  rfl

theorem Store.getReopened_eq_lookup (m : Store)
    (hentries : ∀ entry ∈ replayed c m.disk.wal, Serializable c.toCodec entry) (key : String) :
    m.getReopened c key = some (lookup ((replayed c m.disk.wal).foldl (MemTable.processed c) .new)
      (layers c m.disk) key) := by
  rcases run_new (c := c) m.faultless_faultless hentries with
    ⟨log, m1, hrun1, hm1, -, -, hmemtable, -⟩
  have hreopen : (Log.reopen c).run m.faultless = .ok () (m1.withSelf log) := by
    unfold Log.reopen
    rw [run_bind_of_ok hrun1]
    rfl
  have hm1' := hm1.later.faultless.mpr m.faultless_faultless
  rcases (answers_get (c := c) m1.disk log key).run (m := m1.withSelf log) hm1' rfl rfl with
    ⟨m', hrun', -⟩
  unfold Store.getReopened
  rw [run_bind_of_ok hreopen, hrun', hmemtable, hm1.disk_eq]
  rfl

theorem Inv.get_eq (h : Inv c keys spec m.disk m.self) {key : String} (hkey : key ∈ keys) :
    m.get c key = some (spec key) := by
  rw [m.get_eq_lookup, h.lookup_eq hkey]

theorem Inv.replayed_writable {log : Log} (h : Inv c keys spec m.disk log) :
    ∀ entry ∈ replayed c m.disk.wal, Writable c.toCodec entry := by
  rcases h.wal with ⟨entries, hwritable, hbytes, -⟩
  rw [replayed_encodedAll hwritable hbytes]
  exact hwritable

theorem Inv.reopen {d : Disk} {log log' : Log} (h : Inv c keys spec d log)
    (hpath : log'.walFile.path = .wal)
    (hmemtable : log'.memtable = (replayed c d.wal).foldl (MemTable.processed c) .new) :
    Inv c keys spec d log' := by
  rcases h.wal with ⟨entries, hwritable, hbytes, hspec, hsub⟩
  rw [replayed_encodedAll hwritable hbytes] at hmemtable
  have hget : ∀ key, log'.memtable.get key = (replay entries).get? key := by
    intro key
    rw [MemTable.get, hmemtable, inner_foldl_processed_new]
  refine ⟨h.named, hpath, ⟨entries, hwritable, hbytes, hspec, ?_⟩, ?_, h.scans, ?_⟩
  . intro key _ entry hentry
    rw [← hget, hentry]
  . rw [hmemtable]
    exact stored_foldl_processed hwritable MemTable.stored_new
  . intro key hkey hnone
    apply h.shows key hkey
    -- a key outside of the replay is outside of the old memtable, too
    cases hold : log.memtable.get key with
    | none => rfl
    | some entry =>
      rw [hget, hsub key hkey entry hold] at hnone
      contradiction

theorem Inv.run_reopen {log : Log} (h : Inv c keys spec m.disk log) (hm : m.Faultless) :
    ∃ m', (Log.reopen c).run m = .ok () m' ∧ Reads m m' ∧ Inv c keys spec m'.disk m'.self := by
  rcases run_new hm fun entry hentry => (h.replayed_writable entry hentry).serializable with
    ⟨log', m1, hrun, hm1, -, hpath, hmemtable, -⟩
  refine ⟨m1.withSelf log', ?_, hm1.withSelf log', ?_⟩
  . unfold Log.reopen
    rw [run_bind_of_ok hrun]
    rfl
  . rw [Machine.withSelf_disk, hm1.disk_eq]
    exact h.reopen hpath hmemtable

/--
A log that is opened on the same disk answers as `spec` says, too.
-/
theorem Inv.getReopened_eq {log : Log} (h : Inv c keys spec m.disk log) {key : String}
    (hkey : key ∈ keys) : m.getReopened c key = some (spec key) := by
  let log' : Log := { Log.closed with
    memtable := (replayed c m.disk.wal).foldl (MemTable.processed c) .new }
  have hinv : Inv c keys spec m.disk log' := h.reopen rfl rfl
  rw [m.getReopened_eq_lookup fun entry hentry => (h.replayed_writable entry hentry).serializable,
    ← hinv.lookup_eq hkey]

theorem Op.eq_write {op : Op} {entry : Entry} (h : entry ∈ op.written) : op = .write entry := by
  cases op with
  | write e =>
    cases h
    rfl
  | flush => contradiction
  | maybeFlush => contradiction
  | compact => contradiction
  | reopen => contradiction

def Op.apply (op : Op) (spec : Spec) : Spec :=
  match op.written with
  | some entry => spec.write entry
  | none => spec

/--
The operations keep the invariant. They do not fail but for lack of space.
-/
theorem Inv.wp_exec (h : Inv c keys spec m.disk m.self) (hm : m.Faultless)
    (hT : ∀ d, T d → Sound c d) (op : Op) (hop : ∀ entry ∈ op.written, Writable c.toCodec entry) :
    wp T (op.exec c) (fun _ m' => Inv c keys (op.apply spec) m'.disk m'.self)
      (fun e _ => e = .fault ∨ e = .raised .fileTooLarge
        ∨ (op = .flush ∨ op = .maybeFlush) ∧ 2 ^ 32 ≤ m.self.memtable.len * 10) m := by
  cases op with
  | write entry =>
    apply wp_write (hop entry rfl) h.path_eq h.stored
    . intro m' new _ hnew hdisk hpath hmemtable _
      rw [hdisk]
      exact h.append (hop entry rfl) hnew hpath hmemtable
    . intro e m' new b _ _ _ _ _ _ _ he
      exact he.imp id Or.inl
  | flush =>
    apply h.wp_flush hT
    . intro m' _ hinv
      exact hinv
    . intro e m' _ _ he
      exact he.imp id (Or.imp id fun hlong => ⟨Or.inl rfl, hlong⟩)
  | maybeFlush =>
    apply h.wp_maybeFlush hT
    . intro m' _ hinv
      exact hinv
    . intro e m' _ _ he
      exact he.imp id (Or.imp id fun hlong => ⟨Or.inr rfl, hlong⟩)
  | compact =>
    apply wp_selfless selfless_compact
    apply h.wp_compact hT
    . intro m' _ _ hinv hself
      rw [hself]
      exact hinv
    . intro e m' _ _ _ he _
      exact he.imp id Or.inl
  | reopen =>
    rcases h.run_reopen hm with ⟨m', hrun, -, hinv⟩
    exact wp_of_run hrun hinv

theorem inv_fresh (clock : Nat → Nat) :
    Inv c Set.univ (fun _ => none) (Store.fresh clock).disk (Store.fresh clock).self := by
  refine ⟨?_, rfl, ⟨[], by simp, rfl, ?_, ?_⟩, MemTable.stored_new, ?_, fun _ _ _ => Shows.nil⟩
  . intro name hname
    contradiction
  . intro key _ entry hentry
    contradiction
  . intro key _ entry hentry
    contradiction
  . intro contents hcontents
    contradiction

/--
The states of a store that has been opened on an empty directory: its operations run to their end,
but a flush may stop anywhere, and so may a compaction where no tombstone that it drops is needed any
more.
-/
inductive Reach (c : Crates) : Store → Prop where
  | opened (clock : Nat → Nat) {m : Store}
    (hrun : (Log.reopen c).run (Store.fresh clock) = .ok () m) : Reach c m
  | op {m m' : Store} (h : Reach c m) (op : Op)
    (hop : ∀ entry ∈ op.written, Writable c.toCodec entry)
    (hrun : (op.exec c).run m.faultless = .ok () m') : Reach c m'
  | flushed {m : Store} (h : Reach c m) (faults : Nat → Option Nat) :
    Reach c ((Log.flushTables c).run (m.withFaults faults)).machine
  | compacted {m : Store} (h : Reach c m) (faults : Nat → Option Nat)
    (hhidden : NoneHidden c Set.univ m.disk m.self) :
    Reach c ((compact c).run (m.withFaults faults)).machine

theorem Inv.of_flushTables (h : Inv c keys spec m.disk m.self) (faults : Nat → Option Nat)
    (hT : ((Log.flushTables c).run (m.withFaults faults)).machine.Always (Strict c)) :
    Inv c keys spec ((Log.flushTables c).run (m.withFaults faults)).machine.disk
      ((Log.flushTables c).run (m.withFaults faults)).machine.self := by
  have hwp : wp (Strict c) (Log.flushTables c) (fun _ m' => Inv c keys spec m'.disk m'.self)
      (fun _ m' => Inv c keys spec m'.disk m'.self) (m.withFaults faults) := by
    apply wp_conclude
    apply Inv.wp_flushTables (m := m.withFaults faults) h fun _ hd => hd.sound
    . intro m' _ hinv _ _ _ _ _
      exact hinv
    . intro e m' _ hinv _ hm'
      exact hinv hm'.1
  exact hwp.machine hT

theorem Inv.of_compact {log : Log} (h : Inv c keys spec m.disk log) (faults : Nat → Option Nat)
    (hhidden : NoneHidden c keys m.disk log)
    (hT : ((compact c).run (m.withFaults faults)).machine.Always (Strict c)) :
    Inv c keys spec ((compact c).run (m.withFaults faults)).machine.disk log := by
  have hwp : wp (Strict c) (compact c) (fun _ m' => Inv c keys spec m'.disk log)
      (fun _ m' => Inv c keys spec m'.disk log) (m.withFaults faults) := by
    apply wp_conclude
    apply Inv.wp_compact (m := m.withFaults faults) h fun _ hd => hd.sound
    . intro m' _ _ hinv _
      exact hinv
    . intro e m' _ _ hinv _ hm'
      exact hinv hm'.1 hhidden
  exact hwp.machine hT

/--
All states that can be reached have the invariant.
-/
theorem Reach.inv (h : Reach c m) (hT : m.Always (Strict c)) :
    ∃ spec, Inv c Set.univ spec m.disk m.self := by
  induction h with
  | opened clock hrun =>
    rcases (inv_fresh (c := c) clock).run_reopen (Machine.boot_faultless _ _) with
      ⟨m', hrun', -, hinv⟩
    rw [hrun] at hrun'
    cases hrun'
    exact ⟨_, hinv⟩
  | op _ op hop hrun ih =>
    rcases ih ((extends_of_ok hrun).always hT) with ⟨spec, hinv⟩
    have hwp := (Store.inv_faultless hinv).wp_exec (Store.faultless_faultless _)
      (fun _ hd => Strict.sound hd) op hop
    exact ⟨_, hwp.of_ok hrun hT⟩
  | flushed _ faults ih =>
    rcases ih (extends_withFaults _ faults ((Log.flushTables c).extends_run _) hT) with
      ⟨spec, hinv⟩
    exact ⟨spec, hinv.of_flushTables faults hT⟩
  | compacted _ faults hhidden ih =>
    rcases ih (extends_withFaults _ faults ((compact c).extends_run _) hT) with ⟨spec, hinv⟩
    refine ⟨spec, ?_⟩
    rw [selfless_compact]
    exact hinv.of_compact faults hhidden hT

theorem Reach.of_runOps {ops : List Op} (h : Reach c m) (hm : m.faultless = m)
    (hops : ∀ entry, .write entry ∈ ops → Writable c.toCodec entry) {m' : Store}
    (hrun : (runOps c ops).run m = .ok () m') : Reach c m' := by
  induction ops generalizing m with
  | nil =>
    cases hrun
    exact h
  | cons op ops ih =>
    change (op.exec c >>= fun _ => runOps c ops).run m = .ok () m' at hrun
    cases hexec : (op.exec c).run m with
    | error e m1 =>
      rw [run_bind_of_error hexec] at hrun
      contradiction
    | ok a m1 =>
      rw [run_bind_of_ok hexec] at hrun
      have hm1 : Store.faultless m1 = m1 := by
        have := (extends_of_ok hexec).faults_eq
        rw [← hm] at this
        cases m1
        cases this
        rfl
      rw [← hm] at hexec
      have hreach : Reach c m1 := by
        apply Reach.op h op _ hexec
        intro entry hentry
        apply hops entry
        rw [Op.eq_write hentry]
        exact List.mem_cons_self
      exact ih hreach hm1 (fun entry hentry => hops entry (List.mem_cons_of_mem _ hentry)) hrun

theorem Reach.of_fresh {clock : Nat → Nat} {ops : List Op}
    (hops : ∀ entry, .write entry ∈ ops → Writable c.toCodec entry)
    (h : ((runOps c (.reopen :: ops)).run (Store.fresh clock)).value?.isSome = true) :
    Reach c ((runOps c (.reopen :: ops)).run (Store.fresh clock)).machine := by
  change ((Log.reopen c >>= fun _ => runOps c ops).run _).value?.isSome = true at h
  change Reach c ((Log.reopen c >>= fun _ => runOps c ops).run _).machine
  cases hopen : (Log.reopen c).run (Store.fresh clock) with
  | error e m =>
    rw [run_bind_of_error hopen] at h
    contradiction
  | ok a m =>
    rw [run_bind_of_ok hopen] at h ⊢
    cases hrun : (runOps c ops).run m with
    | error e m' =>
      rw [hrun] at h
      contradiction
    | ok a m' =>
      apply Reach.of_runOps (Reach.opened clock hopen) _ hops hrun
      have := (extends_of_ok hopen).faults_eq
      cases m
      cases this
      rfl

end Chickadee
