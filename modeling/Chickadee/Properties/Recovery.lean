import Chickadee.Lemmas.Recovery
import Chickadee.Lib.Simulation
import Chickadee.Properties.Failure

/-!
This module contains what a store is whose calls fail and whose process dies now and then: two maps, the
one the log shows and the one that a log shows that is opened next. Every run of the store is one of
these maps, and in all of them an entry that has been acknowledged stays.
-/

namespace Chickadee

open Faulty Faulty.Io Layers Simulation

variable {T : Disk → Prop} {c : Crates}

structure Views where
  -- what `get` answers
  live : Spec
  -- what `get` answers on a log that is opened on the disk as it is
  durable : Spec

namespace Views

def reopened (v : Views) : Views :=
  ⟨v.durable, v.durable⟩

/--
What comes of an operation that ends well, or does not.
-/
inductive Exec : Op → Bool → Views → Views → Prop where
  | written (entry : Entry) (v : Views) :
    Exec (.write entry) true v ⟨v.live.write entry, v.durable.write entry⟩
  -- the entry is lost
  | lost (entry : Entry) (v : Views) : Exec (.write entry) false v v
  -- the entry is in the WAL
  | kept (entry : Entry) (v : Views) :
    Exec (.write entry) false v ⟨v.live, v.durable.write entry⟩
  | flushed {op : Op} (ok : Bool) (v : Views) (h : op = .flush ∨ op = .maybeFlush) :
    Exec op ok v ⟨v.live, v.live⟩
  | unchanged {op : Op} {ok : Bool} (v : Views)
    (h : op = .maybeFlush ∨ op = .compact ∨ op = .flush ∧ ok = false) : Exec op ok v v
  | reopened (v : Views) : Exec .reopen true v v.reopened

inductive Step : Views → Incident → Views → Prop where
  | ended {op : Op} {ok : Bool} {v v' : Views} (h : Exec op ok v v') : Step v ⟨op, ok, false⟩ v'
  | died {op : Op} {ok : Bool} {v v' : Views} (h : Exec op ok v v') :
    Step v ⟨op, ok, true⟩ v'.reopened

end Views

def viewSystem : System Views Incident where
  init v := v = ⟨fun _ => none, fun _ => none⟩
  step := Views.Step

/--
The files are what they are taken for, no record decodes in the WAL where none has been written, and
a file is not removed in vain while it holds a value that has been deleted.
-/
structure Attempt.Regular (c : Crates) (a : Attempt) (m : Store) : Prop where
  strict : (a.result c m).machine.Always (Strict c)
  writable : ∀ entry ∈ a.op.written, Writable c.toCodec entry
  appended : OneAppended c m.disk.wal (a.result c m).machine.disk.wal
  opened : a.op = .reopen → ∀ i, a.faults i = none
  removed : ∀ name, (a.result c m).value? = none →
    (a.result c m).machine.FailedAt (.removeFile name) → ∀ key, m.get c key = some none →
      ∀ contents ∈ files m.disk, ∀ entry ∈ fileScan c contents, entry.key = key →
        entry.isSet = false

def storeSystem (c : Crates) : System Store Incident where
  init m := ∃ clock, m = Store.fresh clock
  step m i m' := ∃ a : Attempt, a.Regular c m ∧ i = a.incident c m ∧ m' = a.after c m

theorem parseRecord_torn {entry : Entry} (hentry : Writable c.toCodec entry) {torn : Bytes}
    (htorn : torn <+: encoded c.toCodec entry) (hne : torn ≠ encoded c.toCodec entry) :
    parseRecord c.toCodec torn = none := by
  cases hparse : parseRecord c.toCodec torn with
  | none => rfl
  | some r =>
    rcases htorn with ⟨rest, hrest⟩
    have hlong := parseRecord_append hparse rest
    have hwhole := parseRecord_encoded hentry []
    rw [List.append_nil] at hwhole
    rw [hrest, hwhole] at hlong
    cases hlong
    -- a record does not end behind the bytes it is decoded from
    have hle := (of_parseRecord hparse).2.2.1
    rw [← hrest, List.length_append] at hle
    have hnil : rest = [] := List.eq_nil_of_length_eq_zero (by omega)
    rw [hnil, List.append_nil] at hrest
    exact absurd hrest hne

theorem OneAppended.noneRevived {old new : Contents} {entry : Entry} {torn : Bytes}
    (h : OneAppended c old new) (hentry : Writable c.toCodec entry)
    (hnew : new.bytes = old.bytes ++ torn) (htorn : torn <+: encoded c.toCodec entry)
    (hne : torn ≠ encoded c.toCodec entry) : NoneRevived c old new := by
  intro q hq
  by_cases hend : q = old.length
  . have hdrop : new.bytes.drop q = torn := by rw [hnew, hend, Contents.length, List.drop_left]
    rw [hdrop, parseRecord_torn hentry htorn hne] at hq
    contradiction
  . exact h q hend hq

namespace Recoverable

variable {live durable : Spec}

theorem writable_append {d : Disk} {log : Log} (h : Recoverable c live durable d log) {entry : Entry}
    (hentry : Writable c.toCodec entry) :
    ∀ e ∈ replayed c d.wal ++ [entry], Writable c.toCodec e := by
  intro e he
  cases List.mem_append.mp he with
  | inl hmem => exact h.writable e hmem
  | inr heq =>
    rw [List.mem_singleton.mp heq]
    exact hentry

theorem covered_append {d : Disk} {log : Log} (h : Recoverable c live durable d log) {entry : Entry}
    {key : String} (hnone : (replay (replayed c d.wal ++ [entry])).get? key = none) :
    key ≠ entry.key ∧ log.memtable.get key = none := by
  rw [replay_append, SortedMap.get?_insert] at hnone
  split at hnone
  . contradiction
  . next hne => exact ⟨hne, h.covered key hnone⟩

theorem torn {d : Disk} {log log' : Log} (h : Recoverable c live durable d log) {entry : Entry}
    (hentry : Writable c.toCodec entry) {new : Contents} {torn : Bytes}
    (hnew : new.bytes = d.wal.bytes ++ torn) (htorn : torn <+: encoded c.toCodec entry)
    (hone : OneAppended c d.wal new) (hpath : log'.walFile.path = .wal)
    (hmemtable : log'.memtable = log.memtable) :
    Recoverable c live durable (d.write .wal new) log'
      ∨ Recoverable c live (durable.write entry) (d.write .wal new) log' := by
  have hlive : Live c live (d.write .wal new) log' :=
    (h.current.write_wal new).congr hpath hmemtable
  by_cases hwhole : torn = encoded c.toCodec entry
  . rw [hwhole] at hnew
    have hreplayed : replayed c (d.write .wal new).wal = replayed c d.wal ++ [entry] :=
      hone.replayed_eq hentry hnew
    apply Or.inr
    refine ⟨hlive, ?_, ?_, ?_⟩
    . rw [hreplayed]
      exact h.writable_append hentry
    . intro key hnone
      rw [hreplayed] at hnone
      rw [hmemtable]
      exact (h.covered_append hnone).2
    . rw [hreplayed, recovered_append, ← h.durable_eq]
  . have hreplayed : replayed c (d.write .wal new).wal = replayed c d.wal :=
      (hone.noneRevived hentry hnew htorn hwhole).replayed_eq hnew
    apply Or.inl
    refine ⟨hlive, ?_, ?_, ?_⟩
    . rw [hreplayed]
      exact h.writable
    . intro key hnone
      rw [hreplayed] at hnone
      rw [hmemtable]
      exact h.covered key hnone
    . rw [hreplayed]
      exact h.durable_eq

theorem wp_write {m : Machine Call Disk Log} (h : Recoverable c live durable m.disk m.self)
    {entry : Entry} (hentry : Writable c.toCodec entry)
    {Q : Unit → Machine Call Disk Log → Prop} {E : Failure Error → Machine Call Disk Log → Prop}
    (hok : ∀ m', (OneAppended c m.disk.wal m'.disk.wal →
      Recoverable c (live.write entry) (durable.write entry) m'.disk m'.self) → Q () m')
    (hfail : ∀ e m', (OneAppended c m.disk.wal m'.disk.wal →
      Recoverable c live durable m'.disk m'.self
        ∨ Recoverable c live (durable.write entry) m'.disk m'.self) → E e m') :
    wp T (Log.write c entry) Q E m := by
  apply Chickadee.wp_write hentry h.current.path_eq h.current.stored
  . intro m' new _ hnew hdisk hpath hmemtable _
    apply hok
    intro hone
    have hreplayed : replayed c m'.disk.wal = replayed c m.disk.wal ++ [entry] := by
      rw [hdisk] at hone ⊢
      exact hone.replayed_eq hentry hnew
    have hget : ∀ key, m'.self.memtable.get key
        = if key = entry.key then some entry else m.self.memtable.get key := by
      intro key
      rw [hmemtable, MemTable.get_processed]
    refine ⟨⟨?_, hpath, ?_, ?_, ?_, ?_⟩, ?_, ?_, ?_⟩
    . rw [hdisk]
      exact h.current.named
    . rw [hmemtable]
      exact h.current.stored.processed hentry
    . rw [hdisk]
      exact h.current.scans
    . intro key e he
      rw [hget] at he
      unfold Spec.write
      split at he
      . next heq =>
        cases he
        rw [if_pos heq]
      . next hne =>
        rw [if_neg hne]
        exact h.current.mem key e he
    . intro key hnone
      rw [hget] at hnone
      unfold Spec.write
      split at hnone
      . contradiction
      . next hne =>
        rw [if_neg hne, hdisk]
        exact h.current.shows key hnone
    . rw [hreplayed]
      exact h.writable_append hentry
    . intro key hnone
      rw [hreplayed] at hnone
      rcases h.covered_append hnone with ⟨hne, hnone⟩
      rw [hget, if_neg hne, hnone]
    . rw [hreplayed, recovered_append, write_recovered, ← h.durable_eq]
  . intro e m' new torn _ hnew htorn hdisk hpath hmemtable _ _
    apply hfail
    intro hone
    rw [hdisk] at hone ⊢
    exact h.torn hentry hnew htorn hone hpath hmemtable

theorem wp_flush_views {v : Views} {m : Machine Call Disk Log}
    (h : Recoverable c v.live v.durable m.disk m.self) (hT : ∀ d, T d → Strict c d) {op : Op}
    (hop : op = .flush ∨ op = .maybeFlush)
    {Q : Unit → Machine Call Disk Log → Prop} {E : Failure Error → Machine Call Disk Log → Prop}
    (hok : ∀ m' v', Views.Exec op true v v' → Recoverable c v'.live v'.durable m'.disk m'.self →
      Q () m')
    (hfail : ∀ e m', ((∀ name, m'.FailedAt (.removeFile name) → NoOldSet c Set.univ v.live m.disk) →
      ∃ v', Views.Exec op false v v' ∧ Recoverable c v'.live v'.durable m'.disk m'.self) → E e m') :
    wp T (Log.flush c) Q E m := by
  apply h.wp_flush hT
  . intro m' _ hrec'
    exact hok m' _ (.flushed true v hop) hrec'
  . intro e m' _ hrec'
    apply hfail e m'
    intro hold
    cases hrec' hold with
    | inl hrec' =>
      refine ⟨v, .unchanged v ?_, hrec'⟩
      cases hop with
      | inl heq => exact Or.inr (Or.inr ⟨heq, rfl⟩)
      | inr heq => exact Or.inl heq
    | inr hrec' => exact ⟨_, .flushed false v hop, hrec'⟩

theorem wp_maybeFlush {v : Views} {m : Machine Call Disk Log}
    (h : Recoverable c v.live v.durable m.disk m.self) (hT : ∀ d, T d → Strict c d)
    {Q : Unit → Machine Call Disk Log → Prop} {E : Failure Error → Machine Call Disk Log → Prop}
    (hok : ∀ m' v', Views.Exec .maybeFlush true v v' →
      Recoverable c v'.live v'.durable m'.disk m'.self → Q () m')
    (hfail : ∀ e m', ((∀ name, m'.FailedAt (.removeFile name) → NoOldSet c Set.univ v.live m.disk) →
      ∃ v', Views.Exec .maybeFlush false v v'
        ∧ Recoverable c v'.live v'.durable m'.disk m'.self) → E e m') :
    wp T (Log.maybeFlush c) Q E m := by
  unfold Log.maybeFlush
  apply wp_bind
  apply wp_getSelf
  split
  . exact h.wp_flush_views hT (Or.inr rfl) hok hfail
  . apply wp_pure
    exact hok m v (.unchanged v (Or.inl rfl)) h

/--
Whatever fails of an operation, it leaves one of the pairs of maps that can come of it.
-/
theorem wp_exec {v : Views} {m : Machine Call Disk Log}
    (h : Recoverable c v.live v.durable m.disk m.self) (op : Op)
    (hop : ∀ entry ∈ op.written, Writable c.toCodec entry) (hopened : op = .reopen → m.Faultless) :
    wp (Strict c) (op.exec c)
      (fun _ m' => OneAppended c m.disk.wal m'.disk.wal →
        ∃ v', Views.Exec op true v v' ∧ Recoverable c v'.live v'.durable m'.disk m'.self)
      (fun _ m' => OneAppended c m.disk.wal m'.disk.wal →
        (∀ name, m'.FailedAt (.removeFile name) → NoOldSet c Set.univ v.live m.disk) →
        ∃ v', Views.Exec op false v v' ∧ Recoverable c v'.live v'.durable m'.disk m'.self) m := by
  have hstrict : ∀ d, Strict c d → Strict c d := fun _ hd => hd
  cases op with
  | write entry =>
    apply h.wp_write (hop entry rfl)
    . intro m' hrec' hone
      exact ⟨_, .written entry v, hrec' hone⟩
    . intro e m' hrec' hone _
      cases hrec' hone with
      | inl hrec' => exact ⟨v, .lost entry v, hrec'⟩
      | inr hrec' => exact ⟨_, .kept entry v, hrec'⟩
  | flush =>
    apply h.wp_flush_views hstrict (Or.inl rfl)
    . intro m' v' hexec hrec' _
      exact ⟨v', hexec, hrec'⟩
    . intro e m' hrec' _ hold
      exact hrec' hold
  | maybeFlush =>
    apply h.wp_maybeFlush hstrict
    . intro m' v' hexec hrec' _
      exact ⟨v', hexec, hrec'⟩
    . intro e m' hrec' _ hold
      exact hrec' hold
  | compact =>
    apply wp_selfless selfless_compact
    apply h.wp_compact hstrict
    . intro m' _ hrec' hself' _
      refine ⟨v, .unchanged v (Or.inr (Or.inl rfl)), ?_⟩
      rw [hself']
      exact hrec'
    . intro e m' _ hrec' hself' _ hold
      refine ⟨v, .unchanged v (Or.inr (Or.inl rfl)), ?_⟩
      rw [hself']
      apply hrec'
      intro name hfailed
      exact h.current.noneHidden (hold name hfailed)
  | reopen =>
    rcases h.run_reopen (hopened rfl) with ⟨m', hrun, hrec'⟩
    exact wp_of_run hrun fun _ => ⟨_, .reopened v, hrec'⟩

theorem noOldSet {v : Views} {m : Store} (h : Recoverable c v.live v.durable m.disk m.self)
    (hold : ∀ key, m.get c key = some none → ∀ contents ∈ files m.disk,
      ∀ entry ∈ fileScan c contents, entry.key = key → entry.isSet = false) :
    NoOldSet c Set.univ v.live m.disk := by
  intro key _ hnone
  apply hold key
  rw [h.get_eq, hnone]

theorem step {v : Views} {m : Store} (h : Recoverable c v.live v.durable m.disk m.self)
    {a : Attempt} (ha : a.Regular c m) : ∃ v', Views.Step v (a.incident c m) v'
      ∧ Recoverable c v'.live v'.durable (a.after c m).disk (a.after c m).self := by
  have hexec : ∃ v', Views.Exec a.op (a.result c m).value?.isSome v v'
      ∧ Recoverable c v'.live v'.durable (a.result c m).machine.disk (a.result c m).machine.self := by
    have hwp := wp_exec (m := m.resume a.faults) h a.op ha.writable ha.opened ha.strict
    have hone := ha.appended
    have hremoved := ha.removed
    unfold Attempt.result at *
    cases hrun : (a.op.exec c).run (m.resume a.faults) with
    | ok u m' =>
      rw [hrun] at hwp hone
      exact hwp hone
    | error e m' =>
      rw [hrun] at hwp hone hremoved
      apply hwp hone
      intro name hfailed
      exact h.noOldSet (hremoved name rfl hfailed)
  rcases hexec with ⟨v', hexec, hrec'⟩
  unfold Attempt.incident Attempt.after
  cases a.dies with
  | false => exact ⟨v', .ended hexec, hrec'⟩
  | true =>
    have hopen := run_reopen (m := Store.faultless (a.result c m).machine) hrec'
      (Store.faultless_faultless _)
    rcases hopen with ⟨m'', hrun, hrec''⟩
    refine ⟨v'.reopened, .died hexec, ?_⟩
    simp only [if_true, hrun]
    exact hrec''

end Recoverable

def appendedCheck (c : Crates) (old new : Contents) : Bool :=
  (List.range new.length).all fun q => q == old.length
    || (parseRecord c.toCodec (new.bytes.drop q)).isNone
    || (parseRecord c.toCodec (old.bytes.drop q)).isSome

theorem OneAppended.of_check {old new : Contents} (h : appendedCheck c old new = true) :
    OneAppended c old new := by
  intro q hne hq
  by_cases hlt : q < new.length
  . have hq' := List.all_eq_true.mp h q (List.mem_range.mpr hlt)
    simp only [Bool.or_eq_true, beq_iff_eq, Option.isNone_iff_eq_none] at hq'
    rcases hq' with (heq | hnone) | hsome
    . exact absurd heq hne
    . rw [hnone] at hq
      contradiction
    . exact hsome
  . rw [List.drop_eq_nil_of_le (Nat.not_lt.mp hlt), parseRecord_short (Nat.zero_le _)] at hq
    contradiction

-- a test for what runs rely on that remove no file
def runCheck (c : Crates) (op : Op) (wal : Contents) (m' : Store) : Bool :=
  alwaysCheck c m' && op.written.all (fun entry => writableCheck c.toCodec entry)
    && appendedCheck c wal m'.disk.wal
    && m'.history.all fun s =>
      match s.call with
      | .removeFile _ => false
      | _ => true

section Check

variable {op : Op} {wal : Contents} {m' : Store}

theorem strict_of_check (h : runCheck c op wal m' = true) : m'.Always (Strict c) := by
  unfold runCheck at h
  simp only [Bool.and_eq_true] at h
  exact always_strict_of_check h.1.1.1

theorem writable_of_check (h : runCheck c op wal m' = true) :
    ∀ entry ∈ op.written, Writable c.toCodec entry := by
  unfold runCheck at h
  simp only [Bool.and_eq_true] at h
  have hwritable := h.1.1.2
  intro entry hentry
  rw [Option.mem_def.mp hentry] at hwritable
  exact Writable.of_check _ hwritable

theorem appended_of_check (h : runCheck c op wal m' = true) : OneAppended c wal m'.disk.wal := by
  unfold runCheck at h
  simp only [Bool.and_eq_true] at h
  exact OneAppended.of_check h.1.2

theorem not_failedAt_of_check (h : runCheck c op wal m' = true) (name : String) :
    ¬m'.FailedAt (.removeFile name) := by
  unfold runCheck at h
  simp only [Bool.and_eq_true, List.all_eq_true] at h
  rintro ⟨before, history, hhistory, -⟩
  have hcall := h.2 ⟨.removeFile name, before⟩ (by rw [hhistory]; exact List.mem_cons_self)
  exact Bool.false_ne_true hcall

end Check

namespace Attempt

def runAll (c : Crates) (as : List Attempt) (m : Store) : Store :=
  as.foldl (fun m a => a.after c m) m

def incidents (c : Crates) : List Attempt → Store → List Incident
  | [], _ => []
  | a :: as, m => a.incident c m :: incidents c as (a.after c m)

-- a test for `Regular` where no removal of a file fails
def regularCheck (c : Crates) (a : Attempt) (m : Store) : Bool :=
  runCheck c a.op m.disk.wal (a.result c m).machine

def regularAll (c : Crates) : List Attempt → Store → Bool
  | [], _ => true
  | a :: as, m => regularCheck c a m && regularAll c as (a.after c m)

theorem Regular.of_check {a : Attempt} {m : Store} (h : regularCheck c a m = true)
    (hopened : a.op = .reopen → ∀ i, a.faults i = none) : a.Regular c m := by
  have hkept := not_failedAt_of_check h
  exact ⟨strict_of_check h, writable_of_check h, appended_of_check h, hopened,
    fun name _ hfailed => absurd hfailed (hkept name)⟩

theorem reaches_runAll {as : List Attempt} {ls : List Incident} {m : Store}
    (h : (storeSystem c).Reaches ls m) (hregular : regularAll c as m = true)
    (hopened : ∀ a ∈ as, a.op = .reopen → ∀ i, a.faults i = none) :
    (storeSystem c).Reaches (ls ++ incidents c as m) (runAll c as m) := by
  induction as generalizing ls m with
  | nil =>
    rw [incidents, List.append_nil]
    exact h
  | cons a as ih =>
    unfold regularAll at hregular
    rw [Bool.and_eq_true] at hregular
    have hstep : (storeSystem c).step m (a.incident c m) (a.after c m) :=
      ⟨a, Regular.of_check hregular.1 (hopened a List.mem_cons_self), rfl, rfl⟩
    have hrest := ih (h.step hstep) hregular.2 fun a' ha' => hopened a' (List.mem_cons_of_mem _ ha')
    rw [List.append_assoc] at hrest
    exact hrest

end Attempt

/--
The second write fails when its record is in the WAL, and the process dies; the third one is torn; the
flush fails before the WAL is truncated.
-/
def sampleAttempts : List Attempt :=
  [⟨.reopen, fun _ => none, false⟩, ⟨.write (.set "a" "b"), fun _ => none, false⟩,
    ⟨.write (.set "a" "C"), failAt 2 0, true⟩, ⟨.write (.set "x" "y"), failAt 1 31, false⟩,
    ⟨.flush, failAt 8 0, false⟩]

def sampleIncidents : List Incident :=
  [⟨.reopen, true, false⟩, ⟨.write (.set "a" "b"), true, false⟩,
    ⟨.write (.set "a" "C"), false, true⟩, ⟨.write (.set "x" "y"), false, false⟩,
    ⟨.flush, false, false⟩]

def sampleStore : Store :=
  Attempt.runAll Concrete.crates sampleAttempts (Store.fresh Nat.succ)

theorem reaches_sampleStore : (storeSystem Concrete.crates).Reaches sampleIncidents sampleStore := by
  have hincidents : Attempt.incidents Concrete.crates sampleAttempts (Store.fresh Nat.succ)
      = sampleIncidents := by decide +kernel
  have hopened : ∀ a ∈ sampleAttempts, a.op = .reopen → ∀ i, a.faults i = none := by
    unfold sampleAttempts
    simp
  have hregular : Attempt.regularAll Concrete.crates sampleAttempts (Store.fresh Nat.succ) = true := by
    decide +kernel
  have h := Attempt.reaches_runAll (.init ⟨Nat.succ, rfl⟩) hregular hopened
  rw [hincidents] at h
  exact h

/-! The store is the two maps -/

theorem recoverable_fresh (clock : Nat → Nat) : Recoverable c (fun _ => none) (fun _ => none)
    (Store.fresh clock).disk (Store.fresh clock).self := by
  apply Recoverable.of_empty _ rfl rfl
  apply Live.of_inv
  intro key
  exact ⟨.empty, (inv_fresh clock).mono (Set.subset_univ _)⟩

theorem forward_views (c : Crates) : Simulation.Forward (storeSystem c) viewSystem some
    (fun m v => Recoverable c v.live v.durable m.disk m.self) := by
  constructor
  . rintro m ⟨clock, rfl⟩
    exact ⟨_, rfl, recoverable_fresh clock⟩
  . rintro m i m' v hrec ⟨a, ha, rfl, rfl⟩
    exact hrec.step ha

/--
Every run of the store of `Regular` attempts, whatever fails in it and whenever the process dies, is a
run of the two maps.
-/
theorem reaches_views {ls : List Incident} {m : Store} (h : (storeSystem c).Reaches ls m) :
    ∃ v, viewSystem.Reaches ls v
      ∧ ∀ key, m.get c key = some (v.live key) ∧ m.getReopened c key = some (v.durable key) := by
  rcases (forward_views c).reaches h with ⟨v, hv, hrec⟩
  rw [List.filterMap_some] at hv
  exact ⟨v, hv, fun key => ⟨hrec.get_eq key, hrec.getReopened_eq key⟩⟩

theorem reaches_views_sampleStore : ∃ v, viewSystem.Reaches sampleIncidents v
    ∧ v.live "a" = some (.set "a" "C") ∧ v.durable "x" = none := by
  rcases reaches_views reaches_sampleStore with ⟨v, hv, hget⟩
  have ha : sampleStore.get Concrete.crates "a" = some (some (.set "a" "C")) := by decide +kernel
  have hx : sampleStore.getReopened Concrete.crates "x" = some none := by decide +kernel
  rw [(hget "a").1] at ha
  rw [(hget "x").2] at hx
  exact ⟨v, hv, Option.some.inj ha, Option.some.inj hx⟩

namespace Incident

def Acknowledges (key : String) (i : Incident) : Prop :=
  i.ok = true ∧ ∃ entry, i.op = .write entry ∧ entry.key = key

def Restarts (i : Incident) : Prop :=
  i.died = true ∨ i.op = .reopen

end Incident

/--
`r` has been written at the key, or nothing has been and it is `none`, and no write to the key has been
acknowledged since. If the write itself was not acknowledged, the log has been opened since, or it is
opened now.
-/
inductive Explained (key : String) (opened : Prop) : List Incident → Option Entry → Prop where
  | never {ls : List Incident} (h : ∀ i ∈ ls, ¬i.Acknowledges key) : Explained key opened ls none
  | write {before after : List Incident} {i : Incident} {entry : Entry} (hop : i.op = .write entry)
    (hkey : entry.key = key) (hseen : i.ok = true ∨ opened ∨ ∃ i' ∈ i :: after, i'.Restarts)
    (h : ∀ i' ∈ after, ¬i'.Acknowledges key) :
    Explained key opened (before ++ i :: after) (Log.visible entry)

namespace Explained

variable {key : String} {opened : Prop} {ls : List Incident} {r : Option Entry} {i : Incident}

theorem mono (h : Explained key False ls r) : Explained key opened ls r := by
  cases h with
  | never h => exact .never h
  | write hop hkey hseen h => exact .write hop hkey (hseen.imp id (Or.imp False.elim id)) h

theorem later (h : Explained key opened ls r) (hi : ¬i.Acknowledges key) :
    Explained key opened (ls ++ [i]) r := by
  have hrest : ∀ {rest : List Incident}, (∀ i' ∈ rest, ¬i'.Acknowledges key) →
      ∀ i' ∈ rest ++ [i], ¬i'.Acknowledges key := by
    intro rest h i' hi'
    cases List.mem_append.mp hi' with
    | inl hmem => exact h i' hmem
    | inr heq =>
      rw [List.mem_singleton.mp heq]
      exact hi
  cases h with
  | never h => exact .never (hrest h)
  | write hop hkey hseen h =>
    rw [List.append_assoc, List.cons_append]
    apply Explained.write hop hkey _ (hrest h)
    refine hseen.imp id (Or.imp id ?_)
    rintro ⟨i', hi', hrestarts⟩
    refine ⟨i', ?_, hrestarts⟩
    rw [← List.cons_append]
    exact List.mem_append_left _ hi'

theorem last {entry : Entry} (hop : i.op = .write entry) (hkey : entry.key = key)
    (hseen : i.ok = true ∨ opened) : Explained key opened (ls ++ [i]) (Log.visible entry) :=
  .write hop hkey (hseen.imp id Or.inl) (by simp)

theorem of_restarts (h : Explained key True (ls ++ [i]) r) (hi : i.Restarts) :
    Explained key False (ls ++ [i]) r := by
  generalize hls : ls ++ [i] = ls' at h ⊢
  cases h with
  | never h => exact .never h
  | @write before after i' entry hop hkey hseen h =>
    apply Explained.write hop hkey _ h
    have hmem : i ∈ i' :: after := by
      have hlast := congrArg List.getLast? hls
      rw [List.getLast?_concat, List.getLast?_append_of_ne_nil _ (List.cons_ne_nil _ _)] at hlast
      exact List.mem_of_getLast? hlast.symm
    exact Or.inr (Or.inr ⟨i, hmem, hi⟩)

end Explained

def Views.Accounted (ls : List Incident) (v : Views) : Prop :=
  ∀ key, Explained key False ls (v.live key) ∧ Explained key True ls (v.durable key)

namespace Views

variable {ls : List Incident} {v v' : Views}

theorem write_live {opened : Prop} {spec : Spec} {key : String} {entry : Entry} {i : Incident}
    (h : Explained key opened ls (spec key)) (hop : i.op = .write entry)
    (hseen : i.ok = true ∨ opened) :
    Explained key opened (ls ++ [i]) (spec.write entry key) := by
  unfold Spec.write
  split
  . next heq => exact Explained.last hop heq.symm hseen
  . next hne =>
    apply h.later
    rintro ⟨-, entry', hop', hkey'⟩
    rw [hop] at hop'
    cases hop'
    exact hne hkey'.symm

theorem Accounted.exec {op : Op} {ok : Bool} (h : Accounted ls v) (hexec : Exec op ok v v')
    (died : Bool) : Accounted (ls ++ [⟨op, ok, died⟩]) v' := by
  have hquiet : op.written = none ∨ ok = false → ∀ key, ¬Incident.Acknowledges key ⟨op, ok, died⟩ := by
    rintro hquiet key ⟨hok, entry, hop, -⟩
    cases hquiet with
    | inl hnone =>
      dsimp only at hop
      rw [hop] at hnone
      contradiction
    | inr hfalse =>
      dsimp only at hok
      rw [hok] at hfalse
      contradiction
  cases hexec with
  | written entry =>
    intro key
    exact ⟨write_live (h key).1 rfl (Or.inl rfl), write_live (h key).2 rfl (Or.inl rfl)⟩
  | lost entry =>
    intro key
    have hquiet := hquiet (Or.inr rfl) key
    exact ⟨(h key).1.later hquiet, (h key).2.later hquiet⟩
  | kept entry =>
    intro key
    exact ⟨(h key).1.later (hquiet (Or.inr rfl) key), write_live (h key).2 rfl (Or.inr trivial)⟩
  | flushed ok v hop =>
    intro key
    have hquiet := hquiet (Or.inl (by rcases hop with rfl | rfl <;> rfl)) key
    exact ⟨(h key).1.later hquiet, ((h key).1.later hquiet).mono⟩
  | unchanged v hop =>
    intro key
    have hquiet := hquiet (Or.inl (by rcases hop with rfl | rfl | ⟨rfl, -⟩ <;> rfl)) key
    exact ⟨(h key).1.later hquiet, (h key).2.later hquiet⟩
  | reopened v =>
    intro key
    have hquiet := hquiet (Or.inl rfl) key
    exact ⟨((h key).2.later hquiet).of_restarts (Or.inr rfl), (h key).2.later hquiet⟩

theorem invariant_accounted : viewSystem.Invariant Accounted := by
  constructor
  . rintro v rfl key
    exact ⟨.never (by simp), .never (by simp)⟩
  . intro ls v i v' _ h hstep
    cases hstep with
    | ended hexec => exact h.exec hexec false
    | died hexec =>
      have h' := h.exec hexec true
      intro key
      exact ⟨(h' key).2.of_restarts (Or.inl rfl), (h' key).2⟩

end Views

/--
In every such run, what is answered at a key has been written there, and no write to the key has been
acknowledged since.
-/
theorem get_explained {ls : List Incident} {m : Store} (h : (storeSystem c).Reaches ls m)
    (key : String) : ∃ r r', m.get c key = some r ∧ m.getReopened c key = some r'
      ∧ Explained key False ls r ∧ Explained key True ls r' := by
  rcases (forward_views c).of_invariant Views.invariant_accounted h with ⟨v, hv, hrec⟩
  rw [List.filterMap_some] at hv
  exact ⟨v.live key, v.durable key, hrec.get_eq key, hrec.getReopened_eq key, hv key⟩

theorem get_explained_sampleStore :
    Explained "a" False sampleIncidents (some (.set "a" "C"))
      ∧ Explained "x" True sampleIncidents none := by
  have ha : sampleStore.get Concrete.crates "a" = some (some (.set "a" "C")) := by decide +kernel
  have hx : sampleStore.getReopened Concrete.crates "x" = some none := by decide +kernel
  constructor
  . rcases get_explained reaches_sampleStore "a" with ⟨r, r', hr, -, h, -⟩
    rw [ha] at hr
    cases hr
    exact h
  . rcases get_explained reaches_sampleStore "x" with ⟨r, r', -, hr', -, h⟩
    rw [hx] at hr'
    cases hr'
    exact h

end Chickadee
