import Chickadee.Lemmas.Command
import Chickadee.Lemmas.Concrete

/-!
This module contains the account of the memtable in all states that commands and reopenings lead to.
-/

namespace Chickadee

open Faulty Faulty.Io MemTable

variable (c : Crates)

namespace Session

def opened (m : Store) : Machine Call Disk Session :=
  m.withSelf ⟨m.self, []⟩

end Session

/--
The states that commands and reopenings lead to from an empty directory, whatever the clock says. A
command may give up, but not because of the disk.
-/
inductive Commanded : Machine Call Disk Session → Prop where
  | opened (clock : Nat → Nat) {m : Store}
    (hrun : (Log.reopen c).run (Store.fresh clock) = .ok () m) : Commanded (Session.opened m)
  | executed {m : Machine Call Disk Session} (h : Commanded m) (command : Command)
    (hkey : ∀ key ∈ command.key, (bytesOf key).length ≤ isizeMax)
    (hspace : ∀ m', (Session.execute c command).run m ≠ .error (.raised .fileTooLarge) m') :
    Commanded ((Session.execute c command).run m).machine
  | reopened {m : Machine Call Disk Session} (h : Commanded m) :
    Commanded ((Session.zoomLog (Log.reopen c)).run m).machine

variable {c}

theorem settled_fresh (clock : Nat → Nat) :
    Settled c (Store.fresh clock).disk (Store.fresh clock).self :=
  Accounted.empty rfl rfl rfl

theorem Settled.run_zoomLog_reopen {m : Machine Call Disk Session}
    (h : Settled c m.disk m.self.log) (hm : m.Faultless) :
    ∃ m', (Session.zoomLog (Log.reopen c)).run m = .ok () m'
      ∧ m'.self.log.memtable = m.self.log.memtable ∧ Settled c m'.disk m'.self.log := by
  rcases Settled.run_reopen (m := m.withSelf m.self.log) h hm with ⟨m1, hrun, hmemtable, hsettled⟩
  refine ⟨m1.withSelf ⟨m1.self, m.self.out⟩, ?_, hmemtable, hsettled⟩
  unfold Session.zoomLog zoom
  dsimp only
  rw [hrun]

theorem Commanded.settled (hc : PayloadsFit c) {m : Machine Call Disk Session}
    (h : Commanded c m) : m.Faultless ∧ Settled c m.disk m.self.log := by
  induction h with
  | opened clock hrun =>
    rcases (settled_fresh (c := c) clock).run_reopen (Machine.boot_faultless _ _) with
      ⟨m', hrun', -, hsettled⟩
    rw [hrun] at hrun'
    cases hrun'
    exact ⟨(extends_of_ok hrun).faultless.mpr (Machine.boot_faultless _ _), hsettled⟩
  | @executed m _ command hkey hspace ih =>
    have hfaultless := ((Session.execute c command).extends_run m).faultless.mpr ih.1
    have hwp := Settled.wp_execute (T := fun _ => True) hc ih.2 hkey
    cases hrun : (Session.execute c command).run m with
    | ok a m' =>
      rw [hrun] at hfaultless
      exact ⟨hfaultless, hwp.of_ok hrun ⟨trivial, fun _ _ => trivial⟩⟩
    | error e m' =>
      rw [hrun] at hfaultless
      refine ⟨hfaultless, ?_⟩
      rcases hwp.of_error hrun ⟨trivial, fun _ _ => trivial⟩ with (rfl | rfl) | hleft
      . exact absurd ih.1 ((Session.execute c command).faultless_run _ _ hrun)
      . exact absurd hrun (hspace m')
      . exact hleft.2
  | @reopened m _ ih =>
    rcases ih.2.run_zoomLog_reopen ih.1 with ⟨m', hrun, -, hsettled⟩
    have hfaultless := (extends_of_ok hrun).faultless.mpr ih.1
    rw [hrun]
    exact ⟨hfaultless, hsettled⟩

/--
The size of the memtable is what its entries weigh, and it is at most the threshold of a flush. No
operation on it saturates, be it live or in a replay, and no memtable that is flushed has too many
keys, neither the one of the log nor one of a compaction.
-/
theorem size_commanded (hc : PayloadsFit c) {m : Machine Call Disk Session} (h : Commanded c m) :
    (m.self.log.memtable.size = weight c m.self.log.memtable
      ∧ m.self.log.memtable.size ≤ flushThresholdMb * 2 ^ 20)
      ∧ (∀ entry, Fits c entry → Unclamped c m.self.log.memtable entry)
      ∧ (∀ done entry, done ++ [entry] <+: replayed c m.disk.wal →
        Unclamped c (done.foldl (MemTable.processed c) .new) entry)
      ∧ (∃ m', (Session.zoomLog (Log.reopen c)).run m = .ok () m'
        ∧ m'.self.log.memtable.size = m.self.log.memtable.size)
      ∧ (∀ entry : Entry, (bytesOf entry.key).length ≤ isizeMax → ∀ m',
        (Session.zoomLog (Log.write c entry)).run m = .ok () m' →
          m'.self.log.memtable.len * 10 < 2 ^ 32)
      ∧ ∀ command : Command, (∀ key ∈ command.key, (bytesOf key).length ≤ isizeMax) →
        ∀ e m', (Session.execute c command).run m = .error e m' → NoOverflow e := by
  rcases h.settled hc with ⟨hm, hsettled⟩
  refine ⟨⟨hsettled.1.size_eq, hsettled.2⟩, ?_, ?_, ?_, ?_, ?_⟩
  . intro entry hentry
    exact unclamped_of_size_le hsettled.1.size_eq hsettled.2 hentry
  . rcases hsettled.1.wal with ⟨entries, hfits, hbytes, -, hlight⟩
    rw [replayed_encodedAll (fun entry hentry => (hfits entry hentry).1) hbytes]
    exact (size_foldl_processed hfits hlight).2
  . rcases hsettled.run_zoomLog_reopen hm with ⟨m', hrun, hmemtable, -⟩
    exact ⟨m', hrun, by rw [hmemtable]⟩
  . intro entry hkey m' hrun
    have hwp : wp (fun _ => True) (Session.zoomLog (Log.write c entry))
        (fun _ m' => m'.self.log.memtable.len * 10 < 2 ^ 32) (fun _ _ => True) m := by
      apply wp_zoomLog
      apply Settled.wp_write hc hsettled hkey
      . intro m1 h1
        exact h1.small
      . intros
        trivial
    exact hwp.of_ok hrun ⟨trivial, fun _ _ => trivial⟩
  . intro command hkey e m' hrun
    have hwp := Settled.wp_execute (T := fun _ => True) hc hsettled hkey
    rcases hwp.of_error hrun ⟨trivial, fun _ _ => trivial⟩ with hio | hleft
    . exact NoOverflow.of_io hio
    . exact hleft.1

-- wincode that rejects what the header has no length for
def limitedCrates : Crates where
  serialize entry := (Concrete.serialize entry).filter fun payload => payload.length < 2 ^ 32
  deserialize := Concrete.deserialize
  crc32 := Concrete.crc32
  xxh3 := Concrete.xxh3

theorem payloadsFit_limitedCrates : PayloadsFit limitedCrates := by
  intro entry payload h
  rcases Option.filter_eq_some_iff.mp h with ⟨hserialize, hlt⟩
  have hround := Concrete.roundTrips hserialize (of_decide_eq_true hlt)
  exact ⟨h, hround.deserialize_eq, hround.pos, hround.lt⟩

def stoppedMachine : Machine Call Disk Session :=
  Session.opened ((Log.reopen limitedCrates).run (Store.fresh fun _ => 0)).machine

def accountMachine : Machine Call Disk Session :=
  ((Session.execute limitedCrates (.delete "a")).run
    ((Session.execute limitedCrates (.set "a" "b")).run stoppedMachine).machine).machine

theorem size_commanded_accountMachine :
    (accountMachine.self.log.memtable.size = weight limitedCrates accountMachine.self.log.memtable
      ∧ accountMachine.self.log.memtable.size ≤ flushThresholdMb * 2 ^ 20)
      ∧ ∃ m', (Session.zoomLog (Log.reopen limitedCrates)).run accountMachine = .ok () m'
        ∧ m'.self.log.memtable.size = accountMachine.self.log.memtable.size := by
  have hkey : ∀ key ∈ some "a", (bytesOf key).length ≤ isizeMax := by
    intro key hkey
    cases hkey
    decide
  have hopened : Commanded limitedCrates stoppedMachine := by
    apply Commanded.opened fun _ => 0
    exact run_eq_of_value (by decide +kernel)
  have hset : Commanded limitedCrates
      ((Session.execute limitedCrates (.set "a" "b")).run stoppedMachine).machine := by
    apply hopened.executed (.set "a" "b") hkey
    intro m' hm'
    have hvalue : ((Session.execute limitedCrates (.set "a" "b")).run stoppedMachine).value?
        = some () := by decide +kernel
    rw [hm'] at hvalue
    clear hm'
    contradiction
  have hdelete : Commanded limitedCrates accountMachine := by
    apply hset.executed (.delete "a") hkey
    intro m' hm'
    have hvalue : ((Session.execute limitedCrates (.delete "a")).run
        ((Session.execute limitedCrates (.set "a" "b")).run stoppedMachine).machine).value?
          = some () := by decide +kernel
    rw [hm'] at hvalue
    clear hm'
    contradiction
  rcases size_commanded payloadsFit_limitedCrates hdelete with ⟨hsize, -, -, hreopened, -⟩
  exact ⟨hsize, hreopened⟩

end Chickadee
