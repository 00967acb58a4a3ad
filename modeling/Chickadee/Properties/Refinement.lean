import Chickadee.Impl.Concrete
import Chickadee.Lemmas.Run

/-!
This module contains that the store is a map: whatever operations are run on it, and in whatever
order, `get` returns what was written last.
-/

namespace Chickadee

open Faulty Faulty.Io

variable {c : Crates}

def specOf (ops : List Op) (spec : Spec) : Spec :=
  ops.foldl (fun spec op => op.apply spec) spec

-- whenever the memtable is flushed, it has so few keys that a filter for them can be built
def SmallFlushes (c : Crates) (m : Store) (ops : List Op) : Prop :=
  ∀ n, ops[n]? = some .flush ∨ ops[n]? = some .maybeFlush →
    ∀ m', (runOps c (ops.take n)).run m = .ok () m' → m'.self.memtable.len * 10 < 2 ^ 32

theorem specOf_append (ops ops' : List Op) (spec : Spec) :
    specOf (ops ++ ops') spec = specOf ops' (specOf ops spec) :=
  List.foldl_append

theorem lastSet_append (ops : List Op) (op : Op) (key : String) :
    lastSet (ops ++ [op]) key = op.apply (lastSet ops) key := by
  cases hwritten : op.written with
  | none =>
    have happly : op.apply (lastSet ops) = lastSet ops := by simp only [Op.apply, hwritten]
    rw [happly, lastSet, List.filterMap_append, List.filterMap_cons_none hwritten]
    simp [lastSet]
  | some entry =>
    have happly : op.apply (lastSet ops) = (Spec.write (lastSet ops) entry) := by
      simp only [Op.apply, hwritten]
    rw [happly, lastSet, List.filterMap_append, List.filterMap_cons_some hwritten,
      List.filterMap_nil, List.reverse_append, List.reverse_singleton, List.singleton_append,
      Spec.write]
    by_cases hkey : key = entry.key
    . rw [List.find?_cons_of_pos (by simpa using hkey.symm), if_pos hkey, visible_eq]
    . rw [List.find?_cons_of_neg (by simpa using Ne.symm hkey), if_neg hkey]
      rfl

theorem specOf_eq_lastSet (ops : List Op) : specOf ops (fun _ => none) = lastSet ops := by
  induction ops using List.reverseRecOn with
  | nil => rfl
  | append_singleton ops op ih =>
    rw [specOf_append, ih]
    funext key
    exact (lastSet_append ops op key).symm

theorem runOps_append (ops ops' : List Op) :
    runOps c (ops ++ ops') = runOps c ops >>= fun _ => runOps c ops' := by
  induction ops with
  | nil => rfl
  | cons op ops ih =>
    change (op.exec c >>= fun _ => runOps c (ops ++ ops'))
      = (op.exec c >>= fun _ => runOps c ops) >>= fun _ => runOps c ops'
    rw [ih, bind_assoc]

theorem SmallFlushes.of_append {m : Store} {ops ops' : List Op}
    (h : SmallFlushes c m (ops ++ ops')) : SmallFlushes c m ops := by
  intro n hn m' hm'
  have hlt : n < ops.length := by
    cases hn with
    | inl heq => exact (List.getElem?_eq_some_iff.mp heq).1
    | inr heq => exact (List.getElem?_eq_some_iff.mp heq).1
  apply h n
  . rw [List.getElem?_append_left hlt]
    exact hn
  . rw [List.take_append_of_le_length (Nat.le_of_lt hlt)]
    exact hm'

/--
Run lemma of `wp_exec`.
-/
theorem inv_runOps {spec : Spec} (ops : List Op) {m : Store}
    (h : Inv c Set.univ spec m.disk m.self) (hm : m.Faultless)
    (hops : ∀ entry, .write entry ∈ ops → Writable c.toCodec entry)
    (hT : ((runOps c ops).run m).machine.Always (Sound c)) (hsmall : SmallFlushes c m ops)
    (hspace : ∀ m', (runOps c ops).run m ≠ .error (.raised .fileTooLarge) m') :
    ∃ m', (runOps c ops).run m = .ok () m' ∧ Inv c Set.univ (specOf ops spec) m'.disk m'.self := by
  induction ops generalizing m spec with
  | nil => exact ⟨m, rfl, h⟩
  | cons op ops ih =>
    have hwritten : ∀ entry ∈ op.written, Writable c.toCodec entry := by
      intro entry hentry
      apply hops entry
      rw [Op.eq_write hentry]
      exact List.mem_cons_self
    have hexec := h.wp_exec hm (fun d hd => hd) op hwritten
    change ((op.exec c >>= fun _ => runOps c ops).run m).machine.Always _ at hT
    change ∀ m', (op.exec c >>= fun _ => runOps c ops).run m ≠ _ at hspace
    change ∃ m', (op.exec c >>= fun _ => runOps c ops).run m = _ ∧ _
    cases hrun : (op.exec c).run m with
    | ok a m1 =>
      rw [run_bind_of_ok hrun] at hT hspace ⊢
      have hinv := hexec.of_ok hrun (((runOps c ops).extends_run m1).always hT)
      apply ih hinv ((extends_of_ok hrun).faultless.mpr hm) _ hT _ hspace
      . intro entry hentry
        exact hops entry (List.mem_cons_of_mem _ hentry)
      . intro n hn m' hm'
        apply hsmall (n + 1) hn m'
        change (op.exec c >>= fun _ => runOps c (ops.take n)).run m = _
        rw [run_bind_of_ok hrun]
        exact hm'
    | error e m1 =>
      rw [run_bind_of_error hrun] at hT hspace
      rcases hexec.of_error hrun hT with he | he | ⟨hop, hlong⟩
      . rw [he] at hrun
        exact absurd hm ((op.exec c).faultless_run _ _ hrun)
      . exact absurd (by rw [he]) (hspace m1)
      . have := hsmall 0 (hop.imp (congrArg some) (congrArg some)) m rfl
        omega

/--
The store is a map from the start on: after every step of every run, `get` returns what was written
last.
-/
theorem get_eq_lastSet {clock : Nat → Nat} {ops : List Op}
    (hops : ∀ entry, .write entry ∈ ops → Writable c.toCodec entry)
    (hT : ((runOps c (.reopen :: ops)).run (Store.fresh clock)).machine.Always (Sound c))
    (hsmall : SmallFlushes c (Store.fresh clock) (.reopen :: ops))
    (hspace : ∀ m, (runOps c (.reopen :: ops)).run (Store.fresh clock)
      ≠ .error (.raised .fileTooLarge) m)
    {done : List Op} (hdone : done <+: ops) :
    ∃ m : Store, (runOps c (.reopen :: done)).run (Store.fresh clock) = .ok () m
      ∧ ∀ key, m.get c key = some (lastSet done key) := by
  have hm : (Store.fresh clock).Faultless := Machine.boot_faultless _ _
  have hwritable : ∀ entry, .write entry ∈ Op.reopen :: ops → Writable c.toCodec entry := by
    intro entry hentry
    exact hops entry (by simpa using hentry)
  rcases inv_runOps _ (inv_fresh clock) hm hwritable hT hsmall hspace with ⟨m', hrun, -⟩
  -- a part of a run that succeeds succeeds
  rcases hdone with ⟨rest, rfl⟩
  have hsplit : runOps c (.reopen :: (done ++ rest))
      = runOps c (.reopen :: done) >>= fun _ => runOps c rest :=
    runOps_append (.reopen :: done) rest
  cases hdone : (runOps c (.reopen :: done)).run (Store.fresh clock) with
  | error e m =>
    rw [hsplit, run_bind_of_error hdone] at hrun
    contradiction
  | ok a m =>
    rw [hsplit, run_bind_of_ok hdone] at hT
    have hT := ((runOps c rest).extends_run m).always hT
    rw [← List.cons_append] at hsmall hwritable
    have hinv := inv_runOps (.reopen :: done) (inv_fresh clock) hm
      (fun entry hentry => hwritable entry (List.mem_append_left _ hentry))
      (by rw [hdone]; exact hT) hsmall.of_append (by simp [hdone])
    rcases hinv with ⟨m'', hrun'', hinv⟩
    rw [hdone] at hrun''
    cases hrun''
    refine ⟨m, rfl, ?_⟩
    intro key
    rw [hinv.get_eq (Set.mem_univ key)]
    exact congrArg some (congrFun (specOf_eq_lastSet done) key)

def sampleOps : List Op :=
  [.write (.set "a" "b"), .flush, .write (.delete "a"), .compact, .reopen]

theorem get_eq_lastSet_sampleOps :
    ∃ m : Store, (runOps Concrete.crates (.reopen :: sampleOps)).run (Store.fresh Nat.succ)
        = .ok () m
      ∧ ∀ key, m.get Concrete.crates key = some (lastSet sampleOps key) := by
  refine get_eq_lastSet ?_ ?_ ?_ ?_ (List.prefix_refl sampleOps)
  . intro entry hentry
    simp only [sampleOps, List.mem_cons, Op.write.injEq, reduceCtorEq, List.not_mem_nil, or_false,
      false_or] at hentry
    rcases hentry with rfl | rfl
    . exact Writable.of_check _ (by decide +kernel)
    . exact Writable.of_check _ (by decide +kernel)
  . apply Machine.Always.mono (T := Strict Concrete.crates) _ fun _ => Strict.sound
    exact always_strict_of_check (by decide +kernel)
  . -- the only flush is the third operation
    intro n hn
    have hn : n = 2 := by
      match n with
      | 0 => simp [sampleOps] at hn
      | 1 => simp [sampleOps] at hn
      | 2 => rfl
      | 3 => simp [sampleOps] at hn
      | 4 => simp [sampleOps] at hn
      | 5 => simp [sampleOps] at hn
      | n + 6 => simp [sampleOps] at hn
    subst hn
    intro m hm
    have hlen : ((runOps Concrete.crates ((Op.reopen :: sampleOps).take 2)).run
        (Store.fresh Nat.succ)).machine.self.memtable.len * 10 < 2 ^ 32 := by decide +kernel
    rw [hm] at hlen
    exact hlen
  . intro m hm
    have hvalue : ((runOps Concrete.crates (.reopen :: sampleOps)).run
        (Store.fresh Nat.succ)).value? = some () := by decide +kernel
    rw [hm] at hvalue
    clear hm
    contradiction

end Chickadee
