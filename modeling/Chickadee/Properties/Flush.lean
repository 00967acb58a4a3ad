import Chickadee.Properties.Compaction

/-!
This module contains that a flush cannot be observed, wherever it stops: not on the log that is live,
not on a log that is opened later, and not after the flushes that follow.
-/

namespace Chickadee

open Faulty Faulty.Io

variable {c : Crates} {m m' : Store}

/--
What can follow without a write: flushes that stop anywhere before the automatic compaction, by a
crash or by an error, flushes that succeed, and reopenings.
-/
inductive Quiet (c : Crates) (m : Store) : Store → Prop where
  | refl : Quiet c m m
  | stopped {m' : Store} (h : Quiet c m m') (faults : Nat → Option Nat) :
    Quiet c m ((Log.flushTables c).run (m'.withFaults faults)).machine
  | flushed {m' m'' : Store} (h : Quiet c m m') (faults : Nat → Option Nat)
    (hrun : (Log.flush c).run (m'.withFaults faults) = .ok () m'') : Quiet c m m''
  | reopened {m' m'' : Store} (h : Quiet c m m')
    (hrun : (Log.reopen c).run m'.faultless = .ok () m'') : Quiet c m m''

theorem Quiet.always {T : Disk → Prop} (h : Quiet c m m') (hT : m'.Always T) : m.Always T := by
  induction h with
  | refl => exact hT
  | stopped _ faults ih =>
    exact ih (extends_withFaults _ faults ((Log.flushTables c).extends_run _) hT)
  | flushed _ faults hrun ih => exact ih (extends_withFaults _ faults (extends_of_ok hrun) hT)
  | reopened _ hrun ih => exact ih ((extends_of_ok hrun).always hT)

theorem Quiet.inv (h : Quiet c m m') {spec : Spec} (hinv : Inv c Set.univ spec m.disk m.self)
    (hT : m'.Always (Strict c)) : Inv c Set.univ spec m'.disk m'.self := by
  induction h with
  | refl => exact hinv
  | stopped _ faults ih =>
    have ih := ih (extends_withFaults _ faults ((Log.flushTables c).extends_run _) hT)
    exact ih.of_flushTables faults hT
  | @flushed m1 m2 _ faults hrun ih =>
    have ih := ih (extends_withFaults _ faults (extends_of_ok hrun) hT)
    have hwp : wp (Strict c) (Log.flush c) (fun _ m' => Inv c Set.univ spec m'.disk m'.self)
        (fun _ _ => True) (m1.withFaults faults) := by
      apply Inv.wp_flush (m := m1.withFaults faults) ih fun _ hd => hd.sound
      . intro m' _ hinv'
        exact hinv'
      . intros
        trivial
    exact hwp.of_ok hrun hT
  | reopened _ hrun ih =>
    have ih := ih ((extends_of_ok hrun).always hT)
    have ih := Store.inv_faultless ih
    rcases ih.run_reopen (Store.faultless_faultless _) with ⟨m2, hrun2, -, hinv2⟩
    rw [hrun] at hrun2
    cases hrun2
    exact hinv2

theorem get_of_quiet (h : Reach c m) (hquiet : Quiet c m m') (hT : m'.Always (Strict c))
    (key : String) :
    m'.get c key = m.get c key ∧ m'.getReopened c key = m.get c key := by
  rcases h.inv (hquiet.always hT) with ⟨spec, hinv⟩
  have hinv' := hquiet.inv hinv hT
  rw [hinv.get_eq (Set.mem_univ key), hinv'.get_eq (Set.mem_univ key),
    hinv'.getReopened_eq (Set.mem_univ key)]
  exact ⟨rfl, rfl⟩

def flushOps : List Op :=
  [.write (.set "a" "b"), .flush, .write (.set "a" "c")]

def flushStore : Store :=
  ((runOps Concrete.crates (.reopen :: flushOps)).run (Store.fresh Nat.succ)).machine

-- the flush stops after 20 bytes of the only record
def stoppedStore : Store :=
  ((Log.flushTables Concrete.crates).run
    (flushStore.withFaults fun i => if i = 29 then some 20 else none)).machine

def reopenedStore : Store :=
  ((Log.reopen Concrete.crates).run stoppedStore.faultless).machine

def flushedStore : Store :=
  ((Log.flush Concrete.crates).run reopenedStore.faultless).machine

theorem get_of_quiet_flushedStore :
    flushedStore.get Concrete.crates "a" = flushStore.get Concrete.crates "a"
      ∧ flushedStore.getReopened Concrete.crates "a" = flushStore.get Concrete.crates "a" := by
  apply @get_of_quiet _ flushStore flushedStore
  . apply Reach.of_fresh
    . intro entry hentry
      simp only [flushOps, List.mem_cons, Op.write.injEq, reduceCtorEq, List.not_mem_nil, or_false,
        false_or] at hentry
      rcases hentry with rfl | rfl
      . exact Writable.of_check _ (by decide +kernel)
      . exact Writable.of_check _ (by decide +kernel)
    . decide +kernel
  . have hreopened : Quiet Concrete.crates flushStore reopenedStore := by
      apply Quiet.reopened (Quiet.stopped Quiet.refl _)
      exact run_eq_of_value (a := ()) (by decide +kernel)
    apply Quiet.flushed hreopened
    exact run_eq_of_value (a := ()) (by decide +kernel)
  . exact always_strict_of_check (by decide +kernel)

end Chickadee
