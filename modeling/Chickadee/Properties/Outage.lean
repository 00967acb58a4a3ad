import Chickadee.Lemmas.Outage
import Chickadee.Properties.Recovery

/-!
This module contains what a loss of power does to a store: no more than the death of its process. What a
log answers between two operations, it answers after a loss of power, too.
-/

namespace Chickadee

open Faulty Faulty.Io Layers Platter Simulation

variable {c : Crates} {T : Disk → Prop} {f f' : Nat → Option Nat} {S : Set Bytes}

theorem Secured.congr {K : Set String} {old : List String} {d : Disk}
    {history : List (Step Call Disk)} (h : Secured f K S old d history)
    (hfaults : ∀ i < history.length, f' i = f i) : Secured f' K S old d history := by
  have hback : ∀ i < history.length, f i = f' i := fun i hi => (hfaults i hi).symm
  refine ⟨h.named, h.there, ?_, ?_⟩
  . intro name hname bytes hbytes
    exact h.tables name hname bytes (hbytes.congr hback)
  . intro bytes hbytes
    exact h.wal bytes (hbytes.congr hback)

theorem Secured.started {d : Disk} (hnamed : Named d) :
    Secured f Set.univ {d.wal.bytes} [] d [] := by
  refine ⟨hnamed, by simp, fun name _ => Area.Firm.nil, ?_⟩
  intro bytes hbytes
  have hwal := Area.Firm.nil bytes hbytes
  rw [area_wal] at hwal
  exact (Option.some.inj hwal).symm

/--
The log shows `live`, and so does one that is opened after a loss of power. Where the WAL is not synced,
it is empty, and so is the memtable.
-/
def Calm (c : Crates) (live : Spec) (m : Store) : Prop :=
  ∃ S, Lasting c m.faults S live m.self m.disk m.history
    ∧ (S = {m.disk.wal.bytes} ∨ m.disk.wal = .empty ∧ m.self.memtable = .new)

theorem OneAppended.shorter {old new torn : Contents} (h : OneAppended c old new)
    (hle : torn.bytes <+: new.bytes) : OneAppended c old torn := by
  intro q hne hq
  apply h q hne
  rcases hle with ⟨rest, hrest⟩
  by_cases hlt : q ≤ torn.bytes.length
  . rcases Option.isSome_iff_exists.mp hq with ⟨r, hr⟩
    rw [← hrest, List.drop_append_of_le_length hlt, parseRecord_append hr]
    rfl
  . rw [List.drop_eq_nil_of_le (Nat.le_of_not_le hlt), parseRecord_short (Nat.zero_le _)] at hq
    contradiction

namespace Calm

variable {live : Spec} {m m' : Store}

theorem recoverable (h : Calm c live m) : Recoverable c live live m.disk m.self := by
  rcases h with ⟨S, hlasting, -⟩
  have hrec := hlasting.recoverable m.disk.wal hlasting.current
  rw [Disk.write_self rfl] at hrec
  exact hrec

theorem withFaults (h : Calm c live m) (hfaults : ∀ i < m.history.length, f i = m.faults i) :
    Calm c live (m.withFaults f) := by
  rcases h with ⟨S, hlasting, hwal⟩
  exact ⟨S, ⟨hlasting.secured.congr hfaults, hlasting.current, hlasting.recoverable⟩, hwal⟩

theorem outage (h : Calm c live m) {d' : Disk} (hout : Outage m.faults m.history m.disk d') :
    Recoverable c live live d' m.self := by
  rcases h with ⟨S, hlasting, -⟩
  exact hlasting.outage hout

theorem secured_of_reopen {S : Set Bytes} (hrun : (Log.reopen c).run m = .ok () m')
    (hsecured : Secured m.faults Set.univ S [] m.disk m.history) :
    Secured m'.faults Set.univ S [] m'.disk m'.history := by
  have h := keeps_reopen_secured (c := c) m hsecured
  rw [hrun] at h
  rw [(extends_of_ok hrun).faults_eq]
  exact h

theorem opened {log : Log} {durable : Spec} (h : Recoverable c live durable m.disk log)
    (hm : m.Faultless)
    (hsecured : Secured m.faults Set.univ {m.disk.wal.bytes} [] m.disk m.history) :
    ∃ m', (Log.reopen c).run m = .ok () m' ∧ Calm c durable m' := by
  rcases run_reopen_replayed hm fun entry hentry => (h.writable entry hentry).serializable with
    ⟨m', hrun, hdisk, hpath, hmemtable⟩
  have hsecured' := secured_of_reopen hrun hsecured
  rw [← hdisk] at h hsecured' hmemtable
  refine ⟨m', hrun, _, ⟨hsecured', rfl, ?_⟩, Or.inl rfl⟩
  intro wal hwal
  rw [Contents.eq_of_bytes hwal, Disk.write_self rfl]
  exact h.reopened hpath hmemtable

theorem reopened (h : Calm c live m) (hm : m.Faultless) :
    ∃ m', (Log.reopen c).run m = .ok () m' ∧ Calm c live m' := by
  have hrec := h.recoverable
  rcases h with ⟨S, hlasting, hwal⟩
  cases hwal with
  | inl hsingle =>
    rw [hsingle] at hlasting
    exact opened hrec hm hlasting.secured
  | inr hempty =>
    rcases hempty with ⟨hwal, hnew⟩
    rcases run_reopen_replayed hm fun entry hentry => (hrec.writable entry hentry).serializable with
      ⟨m', hrun, hdisk, hpath, hmemtable⟩
    rw [hwal, replayed_empty] at hmemtable
    have hsecured' := secured_of_reopen hrun hlasting.secured
    have hlive := hlasting.shows.congr hpath (hmemtable.trans hnew.symm)
    refine ⟨m', hrun, S, ⟨hsecured', ?_, ?_⟩, Or.inr ⟨?_, hmemtable⟩⟩
    . rw [hdisk]
      exact hlasting.current
    . intro wal hwal
      rw [hdisk]
      exact hlasting.emptied hlive hmemtable (Or.inr hwal)
    . rw [hdisk]
      exact hwal

theorem wp_write (h : Calm c live m) {entry : Entry} (hentry : Writable c.toCodec entry) :
    wp T (Log.write c entry)
      (fun _ m' => OneAppended c m.disk.wal m'.disk.wal → Calm c (live.write entry) m')
      (fun _ m' => OneAppended c m.disk.wal m'.disk.wal →
        ∀ d', Outage m'.faults m'.history m'.disk d' →
          Opens c live d' ∨ Opens c (live.write entry) d') m := by
  have hrec := h.recoverable
  rcases h with ⟨S, hlasting, -⟩
  have hshown : wp T (Log.write c entry)
      (fun _ m' => OneAppended c m.disk.wal m'.disk.wal →
        Recoverable c (live.write entry) (live.write entry) m'.disk m'.self)
      (fun _ _ => True) m := by
    apply hrec.wp_write hentry
    . intro m' hrec'
      exact hrec'
    . intros
      trivial
  have htorn : wp T (Log.write c entry) (fun _ _ => True)
      (fun _ m' => ∃ new torn, new.bytes = m.disk.wal.bytes ++ torn
        ∧ torn <+: encoded c.toCodec entry ∧ m'.disk = m.disk.write .wal new) m := by
    apply Chickadee.wp_write hentry hrec.current.path_eq hrec.current.stored
    . intros
      trivial
    . intro e m' new torn _ hnew htorn hdisk _ _ _ _
      exact ⟨new, torn, hnew, htorn, hdisk⟩
  have hsecured := wp_write_secured (T := T) hentry rfl hrec.current.path_eq hlasting.secured
  apply wp_mono (wp_and hsecured (wp_and hshown htorn))
  . rintro _ m' hm' ⟨hsecured', hrec', -⟩ hone
    rw [← hm'.faults_eq] at hsecured'
    refine ⟨_, ⟨hsecured', rfl, ?_⟩, Or.inl rfl⟩
    intro wal hwal
    rw [Contents.eq_of_bytes hwal, Disk.write_self rfl]
    exact hrec' hone
  . rintro e m' hm' _ ⟨happended, -, new, torn, hnew, htorn, hdisk⟩ hone d' hout
    rw [hm'.faults_eq] at hout
    have hd' := hout.eq_of_secured happended
    rw [hdisk] at hd' hone
    rw [hd']
    cases hout.wal_mem happended with
    | inl hmem => exact Or.inl ⟨live, m.self, hlasting.recoverable d'.wal hmem⟩
    | inr hbetween =>
      rcases hbetween with ⟨⟨part, hpart⟩, hle⟩
      rw [hdisk] at hle
      have hone := hone.shorter hle
      have hbegins : part <+: torn := by
        change d'.wal.bytes <+: new.bytes at hle
        rw [hnew, ← hpart, List.prefix_append_right_inj] at hle
        exact hle
      have hcases := hrec.torn hentry hpart.symm (hbegins.trans htorn) hone hrec.current.path_eq rfl
      apply hcases.imp
      . intro hrec'
        exact ⟨live, m.self, hrec'⟩
      . intro hrec'
        exact ⟨live, m.self, hrec'⟩

theorem wp_flush (h : Calm c live m) (hT : ∀ d, T d → Strict c d) :
    wp T (Log.flush c) (fun _ m' => Calm c live m')
      (fun _ m' => ∀ d', Outage m'.faults m'.history m'.disk d' → Strict c d' →
        (∀ name, m'.FailedAt (.removeFile name) → NoOldSet c Set.univ live m.disk) →
        Opens c live d') m := by
  rcases h with ⟨S, hlasting, -⟩
  apply wp_mono (hlasting.wp_flush rfl hT)
  . rintro _ m' hm' ⟨hlasting', hwal, hnew⟩
    rw [← hm'.faults_eq] at hlasting'
    exact ⟨_, hlasting', Or.inr ⟨hwal, hnew⟩⟩
  . intro e m' hm' _ hopens
    rw [hm'.faults_eq]
    exact hopens

theorem wp_compact (h : Calm c live m) (hT : ∀ d, T d → Strict c d) :
    wp T (compact c) (fun _ m' => Calm c live m')
      (fun _ m' => ∀ d', Outage m'.faults m'.history m'.disk d' → Strict c d' →
        (∀ name, m'.FailedAt (.removeFile name) → NoOldSet c Set.univ live m.disk) →
        Opens c live d') m := by
  rcases h with ⟨S, hlasting, hcalm⟩
  apply wp_selfless selfless_compact
  apply wp_mono (hlasting.wp_compact rfl hT)
  . rintro _ m' hm' ⟨hlasting', hwal⟩ hself
    rw [← hm'.faults_eq, ← hself] at hlasting'
    rw [← hwal, ← hself] at hcalm
    exact ⟨S, hlasting', hcalm⟩
  . intro e m' hm' _ hopens _ d' hout hstrict hold
    rw [hm'.faults_eq] at hout
    refine ⟨live, m.self, hopens d' hout hstrict fun name hfailed => ?_⟩
    exact hlasting.shows.noneHidden (hold name hfailed)

/--
Wherever an operation is stopped by a loss of power, one of the maps is left that can come of it.
-/
theorem wp_exec (h : Calm c live m) (op : Op)
    (hop : ∀ entry ∈ op.written, Writable c.toCodec entry) (hopened : op = .reopen → m.Faultless) :
    wp (Strict c) (op.exec c)
      (fun _ m' => OneAppended c m.disk.wal m'.disk.wal →
        ∃ live', Views.Exec op true ⟨live, live⟩ ⟨live', live'⟩ ∧ Calm c live' m')
      (fun _ m' => OneAppended c m.disk.wal m'.disk.wal →
        (∀ name, m'.FailedAt (.removeFile name) → NoOldSet c Set.univ live m.disk) →
        ∀ d', Outage m'.faults m'.history m'.disk d' → Strict c d' →
          ∃ v, Views.Exec op false ⟨live, live⟩ v ∧ Opens c v.durable d') m := by
  have hstrict : ∀ d, Strict c d → Strict c d := fun _ hd => hd
  cases op with
  | write entry =>
    apply wp_mono (h.wp_write (hop entry rfl))
    . intro _ m' _ hcalm hone
      exact ⟨_, .written entry _, hcalm hone⟩
    . intro e m' _ _ hopens hone _ d' hout _
      cases hopens hone d' hout with
      | inl hopens => exact ⟨_, .lost entry _, hopens⟩
      | inr hopens => exact ⟨_, .kept entry _, hopens⟩
  | flush =>
    apply wp_mono (h.wp_flush hstrict)
    . intro _ m' _ hcalm _
      exact ⟨live, .flushed true _ (Or.inl rfl), hcalm⟩
    . intro e m' _ _ hopens _ hold d' hout hd'
      exact ⟨_, .flushed false _ (Or.inl rfl), hopens d' hout hd' hold⟩
  | maybeFlush =>
    change wp _ (Log.maybeFlush c) _ _ _
    unfold Log.maybeFlush
    apply wp_bind
    apply wp_getSelf
    split
    . apply wp_mono (h.wp_flush hstrict)
      . intro _ m' _ hcalm _
        exact ⟨live, .flushed true _ (Or.inr rfl), hcalm⟩
      . intro e m' _ _ hopens _ hold d' hout hd'
        exact ⟨_, .flushed false _ (Or.inr rfl), hopens d' hout hd' hold⟩
    . apply wp_pure
      intro _
      exact ⟨live, .unchanged _ (Or.inl rfl), h⟩
  | compact =>
    apply wp_mono (h.wp_compact hstrict)
    . intro _ m' _ hcalm _
      exact ⟨live, .unchanged _ (Or.inr (Or.inl rfl)), hcalm⟩
    . intro e m' _ _ hopens _ hold d' hout hd'
      exact ⟨_, .unchanged _ (Or.inr (Or.inl rfl)), hopens d' hout hd' hold⟩
  | reopen =>
    rcases h.reopened (hopened rfl) with ⟨m', hrun, hcalm⟩
    exact wp_of_run hrun fun _ => ⟨live, .reopened _, hcalm⟩

end Calm

/--
The power is lost after no more calls than have been made. What is left is what can be, and the files
are what they are taken for, as in `Attempt.Regular`.
-/
structure Blackout.Regular (c : Crates) (b : Blackout) (m : Store) : Prop where
  past : ∀ i < m.history.length, b.faults i = none
  outage : Outage b.faults (b.result c m).machine.history (b.result c m).machine.disk b.left
  strict : (b.result c m).machine.Always (Strict c)
  left : Strict c b.left
  writable : ∀ entry ∈ b.op.written, Writable c.toCodec entry
  appended : OneAppended c m.disk.wal (b.result c m).machine.disk.wal
  opened : b.op = .reopen → ∀ i, b.faults i = none
  removed : ∀ name, (b.result c m).value? = none →
    (b.result c m).machine.FailedAt (.removeFile name) → ∀ key, m.get c key = some none →
      ∀ contents ∈ files m.disk, ∀ entry ∈ fileScan c contents, entry.key = key →
        entry.isSet = false

/--
An operation ends well, or the power is lost. A process that fails is not started again before that.
-/
inductive Powered (c : Crates) (m : Store) : Incident → Store → Prop where
  | ended {op : Op} {m' : Store} (hrun : (op.exec c).run m = .ok () m')
    (hstrict : m'.Always (Strict c)) (hwritable : ∀ entry ∈ op.written, Writable c.toCodec entry)
    (happended : OneAppended c m.disk.wal m'.disk.wal) : Powered c m ⟨op, true, false⟩ m'
  | lost (b : Blackout) (hb : b.Regular c m) : Powered c m (b.incident c m) (b.after c)

def powerSystem (c : Crates) : System Store Incident where
  init m := ∃ clock, m = Store.fresh clock
  step := Powered c

theorem calm_fresh (clock : Nat → Nat) : Calm c (fun _ => none) (Store.fresh clock) := by
  have hrec := recoverable_fresh (c := c) clock
  refine ⟨_, ⟨Secured.started hrec.current.named, rfl, ?_⟩, Or.inl rfl⟩
  intro wal hwal
  rw [Contents.eq_of_bytes hwal]
  exact hrec

theorem Opens.after {b : Blackout} {durable : Spec} (h : Opens c durable b.left) :
    (b.after c).Faultless ∧ Calm c durable (b.after c) := by
  rcases h with ⟨live, log, hrec⟩
  have hstarted : (Store.started b.left).Faultless := Machine.boot_faultless _ _
  rcases Calm.opened (m := .started b.left) hrec hstarted (Secured.started hrec.current.named) with
    ⟨m', hrun, hcalm⟩
  unfold Blackout.after
  rw [hrun]
  exact ⟨(extends_of_ok hrun).faultless.mpr hstarted, hcalm⟩

theorem Calm.lost {live : Spec} {m : Store} (h : Calm c live m) {b : Blackout}
    (hb : b.Regular c m) (hm : m.Faultless) : ∃ v, Views.Exec b.op (b.result c m).value?.isSome
      ⟨live, live⟩ v ∧ Opens c v.durable b.left := by
  have hcalm : Calm c live (m.withFaults b.faults) := by
    apply h.withFaults
    intro i hi
    rw [hb.past i hi, hm i]
  have hwp := hcalm.wp_exec b.op hb.writable hb.opened hb.strict
  have hone := hb.appended
  have hout := hb.outage
  have hremoved := hb.removed
  unfold Blackout.result at *
  cases hrun : (b.op.exec c).run (m.withFaults b.faults) with
  | ok u m' =>
    rw [hrun] at hwp hone hout
    rcases hwp hone with ⟨live', hexec, hcalm'⟩
    have hfaults : m'.faults = b.faults := (extends_of_ok hrun).faults_eq
    rw [← hfaults] at hout
    exact ⟨_, hexec, live', m'.self, hcalm'.outage hout⟩
  | error e m' =>
    rw [hrun] at hwp hone hout hremoved
    have hfaults : m'.faults = b.faults := (extends_of_error hrun).faults_eq
    rw [← hfaults] at hout
    apply hwp hone _ b.left hout hb.left
    intro name hfailed
    have hrec : Recoverable c live live m.disk m.self := h.recoverable
    exact hrec.noOldSet (v := ⟨live, live⟩) (hremoved name rfl hfailed)

/--
A loss of power is no worse than the death of the process.
-/
theorem forward_power (c : Crates) : Simulation.Forward (powerSystem c) viewSystem some
    (fun m v => v.durable = v.live ∧ m.Faultless ∧ Calm c v.live m) := by
  constructor
  . rintro m ⟨clock, rfl⟩
    exact ⟨_, rfl, rfl, Machine.boot_faultless _ _, calm_fresh clock⟩
  . rintro m i m' ⟨live, durable⟩ ⟨heq, hm, hcalm⟩ hstep
    cases heq
    cases hstep with
    | @ended op m' hrun hstrict hwritable happended =>
      have hwp := (hcalm.wp_exec op hwritable fun _ => hm).of_ok hrun hstrict
      rcases hwp happended with ⟨live', hexec, hcalm'⟩
      exact ⟨_, .ended hexec, rfl, (extends_of_ok hrun).faultless.mpr hm, hcalm'⟩
    | lost b hb =>
      rcases hcalm.lost hb hm with ⟨v, hexec, hopens⟩
      have hafter := hopens.after
      exact ⟨v.reopened, .died hexec, rfl, hafter.1, hafter.2⟩

theorem Outage.of_wal {d : Disk} {history : List (Step Call Disk)} {wal : Contents}
    (h : Path.wal.area.Remains f d history wal.bytes) : Outage f history d (d.write .wal wal) := by
  refine ⟨rfl, ?_, rfl, rfl⟩
  intro path contents hcontents
  rw [Disk.get?_write] at hcontents
  split at hcontents
  . next heq =>
    cases hcontents
    rw [heq]
    exact h
  . exact .now (area_of_get? hcontents)

def Op.after (c : Crates) (op : Op) (m : Store) : Store :=
  ((op.exec c).run m).machine

theorem reaches_ended {ls : List Incident} {m : Store} (h : (powerSystem c).Reaches ls m) (op : Op)
    (hcheck : (runCheck c op m.disk.wal (op.after c m)
      && ((op.exec c).run m).value?.isSome) = true) :
    (powerSystem c).Reaches (ls ++ [⟨op, true, false⟩]) (op.after c m) := by
  rw [Bool.and_eq_true] at hcheck
  rcases Option.isSome_iff_exists.mp hcheck.2 with ⟨u, hvalue⟩
  exact h.step (.ended (run_eq_of_value hvalue) (strict_of_check hcheck.1)
    (writable_of_check hcheck.1) (appended_of_check hcheck.1))

-- the power is lost, and with it all of the WAL but `wal`
def Blackout.losing (c : Crates) (op : Op) (faults : Nat → Option Nat) (m : Store) (wal : Contents) :
    Blackout :=
  ⟨op, faults, ((op.exec c).run (m.withFaults faults)).machine.disk.write .wal wal⟩

-- a test for `Regular`
def losingCheck (c : Crates) (b : Blackout) (m : Store) (ok : Bool) : Bool :=
  let m' := (b.result c m).machine
  runCheck c b.op m.disk.wal m' && (b.result c m).value?.isSome == ok
    && Path.wal.area.remains b.faults m'.disk m'.history b.left.wal.bytes

theorem reaches_losing {ls : List Incident} {m : Store} (h : (powerSystem c).Reaches ls m) (op : Op)
    (faults : Nat → Option Nat) (wal : Contents) (ok : Bool)
    (hpast : ∀ i < m.history.length, faults i = none) (hop : op ≠ .reopen)
    (hcheck : losingCheck c (.losing c op faults m wal) m ok = true) :
    (powerSystem c).Reaches (ls ++ [⟨op, ok, true⟩]) ((Blackout.losing c op faults m wal).after c) := by
  unfold losingCheck at hcheck
  simp only [Bool.and_eq_true, beq_iff_eq] at hcheck
  rcases hcheck with ⟨⟨hrun, rfl⟩, hremains⟩
  have hkept := not_failedAt_of_check hrun
  refine h.step (.lost (Blackout.losing c op faults m wal) ⟨hpast, ?_, ?_, ?_, ?_, ?_, ?_, ?_⟩)
  . exact Outage.of_wal (Area.remains_iff.mp hremains)
  . exact strict_of_check hrun
  . have hstrict := (strict_of_check hrun).1
    exact ⟨hstrict.clock, hstrict.records⟩
  . exact writable_of_check hrun
  . exact appended_of_check hrun
  . intro hreopen
    exact absurd hreopen hop
  . intro name _ hfailed
    exact absurd hfailed (hkept name)

/--
Every run of the store with `Regular` losses of power is a run of the two maps, where they are the same.
Whatever of the disk is left if it is lost now, a log that is opened on it answers the same.
-/
theorem reaches_powered {ls : List Incident} {m : Store} (h : (powerSystem c).Reaches ls m) :
    ∃ live, viewSystem.Reaches ls ⟨live, live⟩ ∧ ∀ key, m.get c key = some (live key)
      ∧ ∀ d', Outage m.faults m.history m.disk d' →
        (Store.started d').getReopened c key = some (live key) := by
  rcases (forward_power c).reaches h with ⟨⟨live, durable⟩, hv, heq, -, hcalm⟩
  cases heq
  rw [List.filterMap_some] at hv
  refine ⟨live, hv, ?_⟩
  intro key
  refine ⟨hcalm.recoverable.get_eq key, ?_⟩
  intro d' hout
  exact (hcalm.outage hout).getReopened_eq (m := .started d') key

def sampleWritten : Store :=
  Op.after Concrete.crates (.write (.set "a" "b"))
    (Op.after Concrete.crates .reopen (Store.fresh Nat.succ))

theorem reaches_sampleWritten : (powerSystem Concrete.crates).Reaches
    [⟨.reopen, true, false⟩, ⟨.write (.set "a" "b"), true, false⟩] sampleWritten := by
  have hopened := reaches_ended (.init ⟨Nat.succ, rfl⟩) .reopen (c := Concrete.crates)
    (by decide +kernel)
  exact reaches_ended hopened (.write (.set "a" "b")) (by decide +kernel)

def sampleTruncated : Store :=
  Op.after Concrete.crates .flush sampleWritten

theorem reaches_powered_sampleTruncated : ∃ live, viewSystem.Reaches
      [⟨.reopen, true, false⟩, ⟨.write (.set "a" "b"), true, false⟩, ⟨.flush, true, false⟩]
        ⟨live, live⟩
    ∧ live "a" = some (.set "a" "b")
    ∧ (Store.started (sampleTruncated.disk.write .wal sampleWritten.disk.wal)).getReopened
        Concrete.crates "a" = some (live "a") := by
  have hreaches := reaches_ended reaches_sampleWritten .flush (by decide +kernel)
  rcases reaches_powered hreaches with ⟨live, hv, hget⟩
  have ha : sampleTruncated.get Concrete.crates "a" = some (some (.set "a" "b")) := by decide +kernel
  refine ⟨live, hv, Option.some.inj ((hget "a").1.symm.trans ha), ?_⟩
  exact (hget "a").2 _ (Outage.of_wal (by decide +kernel))

/--
In every such run, what is answered at a key has been written there, no write to the key has been
acknowledged since, and it is answered if the power is lost now.
-/
theorem explained_powered {ls : List Incident} {m : Store} (h : (powerSystem c).Reaches ls m)
    (key : String) : ∃ r, m.get c key = some r ∧ Explained key False ls r
      ∧ ∀ d', Outage m.faults m.history m.disk d' →
        (Store.started d').getReopened c key = some r := by
  rcases (forward_power c).of_invariant Views.invariant_accounted h with
    ⟨v, hv, -, -, hcalm⟩
  rw [List.filterMap_some] at hv
  refine ⟨v.live key, hcalm.recoverable.get_eq key, (hv key).1, ?_⟩
  intro d' hout
  exact (hcalm.outage hout).getReopened_eq (m := .started d') key

def sampleFlushed : Store :=
  (Blackout.losing Concrete.crates .flush (fun _ => none) sampleWritten
    sampleWritten.disk.wal).after Concrete.crates

-- a part of the next record is behind the first one
def sampleTorn : Contents where
  bytes := (Op.after Concrete.crates (.write (.set "x" "y")) sampleFlushed).disk.wal.bytes.take 40
  bound := by decide +kernel

-- the power is lost again when that record is not synced
def sampleRecovered : Store :=
  (Blackout.losing Concrete.crates (.write (.set "x" "y"))
    (failAt (sampleFlushed.history.length + 2) 0) sampleFlushed sampleTorn).after Concrete.crates

def sampleLosses : List Incident :=
  [⟨.reopen, true, false⟩, ⟨.write (.set "a" "b"), true, false⟩, ⟨.flush, true, true⟩,
    ⟨.write (.set "x" "y"), false, true⟩]

theorem explained_powered_sampleRecovered :
    Explained "a" False sampleLosses (some (.set "a" "b"))
      ∧ Explained "x" False sampleLosses none := by
  have hflushed : (powerSystem Concrete.crates).Reaches (sampleLosses.take 3) sampleFlushed :=
    reaches_losing reaches_sampleWritten .flush (fun _ => none) sampleWritten.disk.wal true
      (fun _ _ => rfl) (by simp) (by decide +kernel)
  have hrecovered : (powerSystem Concrete.crates).Reaches sampleLosses sampleRecovered := by
    apply reaches_losing hflushed (.write (.set "x" "y"))
    . intro i hi
      exact if_neg (by omega)
    . simp
    . decide +kernel
  have ha : sampleRecovered.get Concrete.crates "a" = some (some (.set "a" "b")) := by decide +kernel
  have hx : sampleRecovered.get Concrete.crates "x" = some none := by decide +kernel
  constructor
  . rcases explained_powered hrecovered "a" with ⟨r, hr, h, -⟩
    rw [ha] at hr
    cases hr
    exact h
  . rcases explained_powered hrecovered "x" with ⟨r, hr, h, -⟩
    rw [hx] at hr
    cases hr
    exact h

end Chickadee
