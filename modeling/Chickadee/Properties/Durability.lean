import Chickadee.Lemmas.Server
import Chickadee.Properties.Account
import Chickadee.Properties.Failure

/-!
This module contains what the response to a `set` or a `delete` says about the disk. It is handed over
before the entry is written, so it promises nothing unless the calls of the write go through behind it.
-/

namespace Chickadee

open Faulty Faulty.Io Layers

variable {σ : Type} {T : Disk → Prop} {c : Crates} {keys : Set String} {spec : Spec}

theorem Inv.forget {d : Disk} {log : Log} (h : Inv c keys spec d log) (spec' : Spec) :
    Inv c ∅ spec' d log := by
  rcases h.wal with ⟨entries, hwritable, hbytes, -⟩
  refine ⟨h.named, h.path_eq, ⟨entries, hwritable, hbytes, ?_, ?_⟩, h.stored, h.scans, ?_⟩ <;>
  . intro key hkey
    contradiction

-- the invariant of the store but for its answers
def Intact (c : Crates) (d : Disk) (log : Log) : Prop :=
  Inv c ∅ (fun _ => none) d log

-- no call fails of a write that begins with call number `i`, and its record fits the WAL
structure Unhindered (c : Crates) (d : Disk) (faults : Nat → Option Nat) (i : Nat) (entry : Entry) :
    Prop where
  writable : Writable c.toCodec entry
  space : d.wal.length + (encoded c.toCodec entry).length ≤ maxFileLen
  faults : ∀ j < 3, faults (i + j) = none

section Log

variable {m : Machine Call Disk Log}

theorem Unhindered.run_write {entry : Entry}
    (h : Unhindered c m.disk m.faults m.history.length entry) (hintact : Intact c m.disk m.self) :
    ∃ m' new, (Log.write c entry).run m = .ok () m'
      ∧ new.bytes = m.disk.wal.bytes ++ encoded c.toCodec entry ∧ m'.disk = m.disk.write .wal new
      ∧ Inv c {entry.key} (Spec.write (fun _ => none) entry) m'.disk m'.self := by
  rcases Chickadee.run_write h.writable hintact.path_eq hintact.stored h.space h.faults with
    ⟨m', hrun⟩
  have hwp : wp (fun _ => True) (Log.write c entry) (fun _ m' => ∃ new,
      new.bytes = m.disk.wal.bytes ++ encoded c.toCodec entry ∧ m'.disk = m.disk.write .wal new
        ∧ Inv c {entry.key} (Spec.write (fun _ => none) entry) m'.disk m'.self)
      (fun _ _ => True) m := by
    apply wp_write h.writable hintact.path_eq hintact.stored
    . intro m' new _ hnew hdisk hpath hmemtable _
      refine ⟨new, hnew, hdisk, ?_⟩
      have hinv := hintact.append_insert h.writable hnew hpath hmemtable
      rw [hdisk]
      exact hinv.mono (by simp)
    . intros
      trivial
  rcases hwp.of_ok hrun ⟨trivial, fun _ _ => trivial⟩ with ⟨new, hnew, hdisk, hinv⟩
  exact ⟨m', new, hrun, hnew, hdisk, hinv⟩

theorem Intact.wp_reopen (h : Intact c m.disk m.self) :
    wp T (Log.reopen c) (fun _ m' => Intact c m'.disk m'.self)
      (fun _ m' => Intact c m'.disk m'.self) m := by
  have hwritable := h.replayed_writable (m := m)
  unfold Log.reopen
  apply wp_bind
  apply wp_new fun entry hentry => (hwritable entry hentry).serializable
  . intro log m1 n hm1 _ hpath hmemtable
    apply wp_setSelf
    rw [Machine.withSelf_disk, Machine.withSelf_self, hm1.disk_eq]
    rcases h.wal with ⟨entries, hentries, hbytes, -⟩
    refine ⟨h.named, hpath, ⟨entries, hentries, hbytes, ?_, ?_⟩, ?_, h.scans, ?_⟩
    . intro key hkey
      contradiction
    . intro key hkey
      contradiction
    . rw [hmemtable]
      apply stored_foldl_processed _ MemTable.stored_new
      exact fun entry hentry => hwritable entry (List.mem_of_mem_take hentry)
    . intro key hkey
      contradiction
  . intro m1 hm1 hself1
    rw [hm1.disk_eq, hself1]
    exact h

/--
No operation can harm an intact state but a write that is torn.
-/
theorem Intact.wp_exec (h : Intact c m.disk m.self) (op : Op)
    (hop : ∀ entry ∈ op.written, Unhindered c m.disk m.faults m.history.length entry) :
    wp (Strict c) (op.exec c) (fun _ m' => Intact c m'.disk m'.self)
      (fun _ m' => Intact c m'.disk m'.self) m := by
  have hsound : ∀ d, Strict c d → Sound c d := fun _ hd => hd.sound
  have hold : ∀ d, NoOldSet c ∅ (fun _ => none) d := by
    intro d key hkey
    contradiction
  apply wp_conclude
  cases op with
  | write entry =>
    rcases (hop entry rfl).run_write h with ⟨m', new, hrun, -, -, hinv⟩
    exact wp_of_run hrun fun _ => hinv.forget _
  | flush =>
    apply Inv.wp_flush h hsound
    . intro m' _ hinv _
      exact hinv
    . intro e m' _ hinv _ hm'
      exact hinv hm'.1 (hold _)
  | maybeFlush =>
    apply Inv.wp_maybeFlush h hsound
    . intro m' _ hinv _
      exact hinv
    . intro e m' _ hinv _ hm'
      exact hinv hm'.1 (hold _)
  | compact =>
    apply wp_selfless selfless_compact
    apply Inv.wp_compact h hsound
    . intro m' _ _ hinv hself _
      rw [hself]
      exact hinv
    . intro e m' _ _ hinv _ hself hm'
      rw [hself]
      exact hinv hm'.1 ((hold _).noneHidden h)
  | reopen =>
    apply wp_mono (Intact.wp_reopen h)
    . intro _ m' _ h' _
      exact h'
    . intro e m' _ _ h' _
      exact h'

/--
Behind a write, a flush keeps its answer, even one that fails, unless its compaction has removed the
tombstone and stops at an older value.
-/
theorem Inv.wp_maybeFlush_answer {key : String} (h : Inv c {key} spec m.disk m.self) :
    wp (Strict c) (Log.maybeFlush c)
      (fun _ m' => Intact c m'.disk m'.self ∧ Store.getReopened c m' key = some (spec key))
      (fun _ m' => Intact c m'.disk m'.self ∧ ((spec key = none → ∀ name,
        m'.FailedAt (.removeFile name) → name ∈ m.disk.sstables.keys →
          lookup .new ((older m.disk name).map (layer c)) key = none) →
        Store.getReopened c m' key = some (spec key))) m := by
  have hkey : key ∈ ({key} : Set String) := rfl
  apply wp_conclude
  apply h.wp_maybeFlush_of_stopped fun _ hd => Strict.sound hd
  . intro m' _ hinv _
    exact ⟨hinv.forget _, hinv.getReopened_eq hkey⟩
  . intro e m' _ hinv _ hm'
    have hinv := hinv hm'.1
    exact ⟨hinv.forget _, fun _ => hinv.getReopened_eq hkey⟩
  . intro m' d name _ hstopped _
    constructor
    . apply (hstopped.inv.forget _).deleting hstopped.deleting hstopped.footers
      intro key hkey
      contradiction
    . intro hleft
      -- what is opened now are the files alone
      have hwal : replayed c m'.disk.wal = [] := by
        rw [hstopped.deleting.wal_eq, hstopped.wal_eq]
        exact @replayed_encodedAll c [] (by simp) .empty rfl
      rw [Store.getReopened_eq_lookup m' (by rw [hwal]; simp), hwal]
      apply congrArg some
      apply hstopped.inv.lookup_deleting hstopped.deleting hstopped.footers hkey hstopped.memtable_eq
      intro hnone
      cases hstopped.grownFrom name hstopped.mem with
      | inl hall =>
        have hlookup := hstopped.inv.lookup_eq hkey
        rw [hstopped.memtable_eq, hnone] at hlookup
        rw [hall]
        exact hlookup
      | inr hold =>
        rw [hold.2]
        exact hleft hnone name hstopped.failed hold.1

end Log

-- call number `i` is one of the run from `m` to `m'`, namely `call`
def CallAt (m m' : Machine Call Disk σ) (i : Nat) (call : Call) : Prop :=
  m.history.length ≤ i ∧ (callsOf m')[i]? = some call

theorem getElem?_callsOf_extends {m m' : Machine Call Disk σ} (h : Extends m m') {i : Nat}
    {call : Call} (hi : (callsOf m)[i]? = some call) : (callsOf m')[i]? = some call := by
  rcases h.history_suffix with ⟨later, hlater⟩
  have hlt : i < (callsOf m).length := (List.getElem?_eq_some_iff.mp hi).1
  unfold callsOf at *
  rw [← hlater, List.map_append, List.reverse_append, List.getElem?_append_left hlt]
  exact hi

theorem CallAt.of_failedAt {m m' : Machine Call Disk σ} (h : Extends m m')
    (hlt : m.history.length < m'.history.length) {call : Call} (hfailed : m'.FailedAt call) :
    ∃ i, CallAt m m' i call ∧ m.faults i ≠ none := by
  rcases hfailed with ⟨before, history, hhistory, hfault⟩
  rw [h.faults_eq] at hfault
  refine ⟨history.length, ⟨?_, ?_⟩, Option.isSome_iff_ne_none.mp hfault⟩
  . rw [hhistory, List.length_cons] at hlt
    exact Nat.le_of_lt_succ hlt
  . unfold callsOf
    rw [hhistory, List.map_cons, List.reverse_cons]
    simp

section Session

variable {m : Machine Call Disk Session} {entry : Entry} {reply : String}

-- the entry that a command writes and the response with which it says so
def Command.promise : Command → Option (Entry × String)
  | .set key value => some (.set key value, key ++ " => " ++ value)
  | .delete key => some (.delete key, key ++ " deleted")
  | .get _ | .quit | .help => none

def Session.persist (c : Crates) (entry : Entry) : Os Session Unit := do
  zoomLog (Log.write c entry)
  zoomLog (Log.maybeFlush c)

/--
The run from `m` to `m'` has written the entry, and a log that is opened afterwards answers with it.
-/
structure Durable (c : Crates) (entry : Entry) (m m' : Machine Call Disk Session) : Prop where
  written : ∃ m0 m1, Extends m m0 ∧ (Session.zoomLog (Log.write c entry)).run m0 = .ok () m1
    ∧ m1.disk.wal.bytes = m0.disk.wal.bytes ++ encoded c.toCodec entry ∧ Extends m1 m'
  answered : Store.getReopened c (m'.withSelf m'.self.log) entry.key = some (Log.visible entry)

/--
No call of the write behind the response fails. If the file `name` cannot be removed that the command
has found, then it and the files that are older do not show the key.
-/
structure Meets (c : Crates) (command : Command) (m m' : Machine Call Disk Session) : Prop where
  write : ∀ entry reply, command.promise = some (entry, reply) → ∀ i, CallAt m m' i (.reply reply) →
    m.faults i = none → Unhindered c m.disk m.faults (i + 1) entry
  removal : ∀ key, command = .delete key → ∀ i name, CallAt m m' i (.removeFile name) →
    m.faults i ≠ none → name ∈ m.disk.sstables.keys →
      lookup .new ((older m.disk name).map (layer c)) key = none

theorem Durable.of_extends {m0 m' : Machine Call Disk Session} (hm : Extends m m0)
    (h : Durable c entry m0 m') : Durable c entry m m' := by
  rcases h.written with ⟨m1, m2, hm1, hwritten⟩
  exact ⟨⟨m1, m2, hm.trans hm1, hwritten⟩, h.answered⟩

theorem run_writeln (line : String) (m : Machine Call Disk Session) :
    (m.faults m.history.length = none ∧ (Session.writeln line).run m
        = .ok () (m.record (.reply line) m.disk ⟨m.self.log, m.self.replied line⟩))
      ∨ ∃ n, (Session.writeln line).run m = .error .fault (m.record (.reply line) m.disk
        ⟨m.self.log, m.self.out ++ (bytesOf (line ++ "\n")).dropLast.take n⟩) := by
  unfold Session.writeln
  cases hfault : m.faults m.history.length with
  | none => exact Or.inl ⟨rfl, run_syscall_of_ok hfault rfl⟩
  | some n => exact Or.inr ⟨n, run_syscall_of_fault hfault⟩

theorem ne_replied_of_torn (session : Session) (line : String) (n : Nat) :
    session.out ++ (bytesOf (line ++ "\n")).dropLast.take n ≠ session.replied line := by
  intro heq
  have hbytes := List.append_cancel_left heq
  have hlen := congrArg List.length hbytes
  have hpos : 0 < (bytesOf (line ++ "\n")).length := length_bytesOf_pos (by simp)
  rw [List.length_take, List.length_dropLast] at hlen
  omega

theorem out_zoomLog {α : Type} (x : Os Log α) (m : Machine Call Disk Session) :
    ((Session.zoomLog x).run m).machine.self.out = m.self.out := by
  unfold Session.zoomLog
  rw [machine_zoom]
  rfl

theorem Unhindered.persist (h : Unhindered c m.disk m.faults m.history.length entry)
    (hintact : Intact c m.disk m.self.log) {m' : Machine Call Disk Session}
    (hm' : m' = ((Session.persist c entry).run m).machine) (hT : m'.Always (Strict c)) :
    Intact c m'.disk m'.self.log ∧ ((entry.isSet = false → ∀ name,
      m'.FailedAt (.removeFile name) → name ∈ m.disk.sstables.keys →
        lookup .new ((older m.disk name).map (layer c)) entry.key = none) → Durable c entry m m') := by
  rcases Unhindered.run_write (m := m.withSelf m.self.log) h hintact with
    ⟨log1, new, hrun1, hnew, hdisk1, hinv1⟩
  let m1 : Machine Call Disk Session := log1.withSelf ⟨log1.self, m.self.out⟩
  have hzoom : (Session.zoomLog (Log.write c entry)).run m = .ok () m1 := run_zoom_of_ok hrun1
  have hflush : m' = ((Session.zoomLog (Log.maybeFlush c)).run m1).machine := by
    rw [hm']
    exact congrArg Result.machine (run_bind_of_ok hzoom)
  have hm1 : Extends m1 m' := by
    rw [hflush]
    exact (Session.zoomLog (Log.maybeFlush c)).extends_run m1
  have hlog := hflush.trans (machine_zoom _ _ _ m1)
  have hanswer := hinv1.wp_maybeFlush_answer
  change wp _ _ _ _ (m1.withSelf m1.self.log) at hanswer
  have hspec : Spec.write (fun _ => none) entry entry.key = Log.visible entry := if_pos rfl
  have hwritten : ∃ m0 m1, Extends m m0 ∧ (Session.zoomLog (Log.write c entry)).run m0 = .ok () m1
      ∧ m1.disk.wal.bytes = m0.disk.wal.bytes ++ encoded c.toCodec entry ∧ Extends m1 m' := by
    refine ⟨m, m1, Extends.refl m, hzoom, ?_, hm1⟩
    change log1.disk.wal.bytes = _
    rw [hdisk1]
    exact hnew
  have hsstables : log1.disk.sstables = m.disk.sstables := by
    rw [hdisk1]
    rfl
  have holder : ∀ name, older log1.disk name = older m.disk name := by
    intro name
    unfold older
    rw [hsstables]
  rw [hlog] at hT
  cases hrun : (Log.maybeFlush c).run (m1.withSelf m1.self.log) with
  | ok a m2 =>
    rw [hrun] at hlog hT
    rcases hanswer.of_ok hrun hT with ⟨hkept, hreopened⟩
    rw [hspec] at hreopened
    refine ⟨by rw [hlog]; exact hkept, fun _ => ⟨hwritten, ?_⟩⟩
    rw [hlog]
    exact hreopened
  | error e m2 =>
    rw [hrun] at hlog hT
    rcases hanswer.of_error hrun hT with ⟨hkept, hreopened⟩
    rw [hspec] at hreopened
    refine ⟨by rw [hlog]; exact hkept, fun hleft => ⟨hwritten, ?_⟩⟩
    rw [hlog]
    apply hreopened
    intro hnone name hfailed hname
    have hset : entry.isSet = false := by
      cases entry with
      | set _ _ => contradiction
      | delete _ => rfl
    change lookup .new ((older log1.disk name).map (layer c)) entry.key = none
    rw [holder]
    apply hleft hset name
    . rw [hlog]
      exact hfailed
    . rw [← hsstables]
      exact hname

variable (entry reply) in
theorem Intact.respond (h : Intact c m.disk m.self.log) {m' : Machine Call Disk Session}
    (hm' : m' = ((Session.writeln reply >>= fun _ => Session.persist c entry).run m).machine)
    (hT : m'.Always (Strict c))
    (hwrite : ∀ i, CallAt m m' i (.reply reply) → m.faults i = none →
      Unhindered c m.disk m.faults (i + 1) entry) :
    Intact c m'.disk m'.self.log ∧ (m'.self.out = m.self.replied reply →
      (entry.isSet = false → ∀ i name, CallAt m m' i (.removeFile name) → m.faults i ≠ none →
        name ∈ m.disk.sstables.keys →
          lookup .new ((older m.disk name).map (layer c)) entry.key = none) →
      Durable c entry m m') := by
  rcases run_writeln reply m with ⟨hfault, hrun⟩ | ⟨n, hrun⟩
  . rw [run_bind_of_ok hrun] at hm'
    let m1 : Machine Call Disk Session :=
      m.record (.reply reply) m.disk ⟨m.self.log, m.self.replied reply⟩
    change m' = ((Session.persist c entry).run m1).machine at hm'
    have hm1 : Extends m m1 := Extends.record ..
    have hm1' : Extends m1 m' := by
      rw [hm']
      exact (Session.persist c entry).extends_run m1
    have hcall : CallAt m m' m.history.length (.reply reply) :=
      ⟨Nat.le_refl _, getElem?_callsOf_extends hm1' (getElem?_callsOf_record ..)⟩
    have hlt : m.history.length < m'.history.length := hm1'.history_suffix.length_le
    rcases Unhindered.persist (m := m1) (hwrite _ hcall hfault) h hm' hT with ⟨hkept, hdurable⟩
    refine ⟨hkept, fun _ hremoval => Durable.of_extends hm1 (hdurable ?_)⟩
    intro hset name hfailed hname
    rcases CallAt.of_failedAt (hm1.trans hm1') hlt hfailed with ⟨i, hi, hne⟩
    exact hremoval hset i name hi hne hname
  . rw [run_bind_of_error hrun] at hm'
    rw [hm']
    exact ⟨h, fun hout => absurd hout (ne_replied_of_torn m.self reply n)⟩

theorem bytesOf_append (s s' : String) : bytesOf (s ++ s') = bytesOf s ++ bytesOf s' := by
  unfold bytesOf
  rw [String.toUTF8_eq_toByteArray, String.toByteArray_append]
  simp

theorem notFound_ne_deleted {key : String} {out : Bytes}
    (h : out <+: bytesOf (key ++ " not found" ++ "\n")) :
    out ≠ bytesOf (key ++ " deleted" ++ "\n") := by
  intro heq
  rw [heq, String.append_assoc, String.append_assoc, bytesOf_append key, bytesOf_append key,
    List.prefix_append_right_inj] at h
  revert h
  decide

theorem Intact.zoomLog_exec (h : Intact c m.disk m.self.log) (op : Op)
    (hop : ∀ entry ∈ op.written, Unhindered c m.disk m.faults m.history.length entry)
    {m' : Machine Call Disk Session} (hm' : m' = ((Session.zoomLog (op.exec c)).run m).machine)
    (hT : m'.Always (Strict c)) : Intact c m'.disk m'.self.log := by
  have hwp := Intact.wp_exec (m := m.withSelf m.self.log) h op hop
  have hlog := hm'.trans (machine_zoom _ _ _ m)
  rw [hlog] at hT ⊢
  exact hwp.machine hT

theorem Intact.of_reads (h : Intact c m.disk m.self.log) {m1 : Machine Call Disk Session}
    (hm1 : Reads m m1) (hself1 : m1.self = m.self) : Intact c m1.disk m1.self.log := by
  rw [hm1.disk_eq, hself1]
  exact h

theorem Intact.wp_writeln (h : Intact c m.disk m.self.log) (line : String) :
    wp T (Session.writeln line) (fun _ m' => Intact c m'.disk m'.self.log)
      (fun _ m' => Intact c m'.disk m'.self.log) m :=
  wp_writeln_of_log h (fun _ h' => h') fun _ h' => h'

theorem Intact.notFound (h : Intact c m.disk m.self.log) (key : String)
    {m' : Machine Call Disk Session}
    (hm' : m' = ((Session.writeln (key ++ " not found")
      >>= fun _ => Session.zoomLog (Log.maybeFlush c)).run m).machine)
    (hT : m'.Always (Strict c)) :
    Intact c m'.disk m'.self.log ∧ m'.self.out ≠ m.self.replied (key ++ " deleted") := by
  rcases run_writeln (key ++ " not found") m with ⟨-, hrun⟩ | ⟨n, hrun⟩
  . have hm' := hm'.trans (congrArg Result.machine (run_bind_of_ok hrun))
    constructor
    . apply Intact.zoomLog_exec _ .maybeFlush (by simp [Op.written]) hm' hT
      exact h
    . intro hout
      rw [hm', out_zoomLog] at hout
      exact notFound_ne_deleted (List.prefix_refl _) (List.append_cancel_left hout)
  . have hm' : m' = _ := hm'.trans (congrArg Result.machine (run_bind_of_error hrun))
    rw [hm']
    refine ⟨h, fun hout => ?_⟩
    apply notFound_ne_deleted _ (List.append_cancel_left hout)
    exact (List.take_prefix _ _).trans (List.dropLast_prefix _)

theorem Intact.delete (h : Intact c m.disk m.self.log) {key : String}
    {m' : Machine Call Disk Session} (hm' : m' = ((Session.execute c (.delete key)).run m).machine)
    (hmeets : Meets c (.delete key) m m') (hT : m'.Always (Strict c)) :
    Intact c m'.disk m'.self.log
      ∧ (m'.self.out = m.self.replied (key ++ " deleted") → Durable c (.delete key) m m') := by
  have hcontains : wp (fun _ => True) (Session.zoomLog (Log.contains c key))
      (fun _ m1 => Reads m m1 ∧ m1.self = m.self) (fun _ m1 => Reads m m1 ∧ m1.self = m.self) m :=
    wp_zoomLog_contains key (fun _ hm1 hself1 => ⟨hm1, hself1⟩) fun _ hm1 hself1 => ⟨hm1, hself1⟩
  cases hrun : (Session.zoomLog (Log.contains c key)).run m with
  | error e m1 =>
    rcases hcontains.of_error hrun ⟨trivial, fun _ _ => trivial⟩ with ⟨hm1, hself1⟩
    have hm' : m' = m1 := hm'.trans (congrArg Result.machine (run_bind_of_error hrun))
    rw [hm']
    refine ⟨h.of_reads hm1 hself1, fun hout => ?_⟩
    have htorn := ne_replied_of_torn m.self (key ++ " deleted") 0
    rw [List.take_zero, List.append_nil] at htorn
    rw [hself1] at hout
    exact absurd hout htorn
  | ok found m1 =>
    rcases hcontains.of_ok hrun ⟨trivial, fun _ _ => trivial⟩ with ⟨hm1, hself1⟩
    have hintact1 := h.of_reads hm1 hself1
    have hm' := hm'.trans (congrArg Result.machine (run_bind_of_ok hrun))
    cases found with
    | true =>
      have hcall : ∀ {i call}, CallAt m1 m' i call → CallAt m m' i call :=
        fun hi => ⟨Nat.le_trans hm1.later.history_suffix.length_le hi.1, hi.2⟩
      have hresponse := hintact1.respond (.delete key) (key ++ " deleted") hm' hT
      rw [hm1.later.faults_eq, hm1.disk_eq, hself1] at hresponse
      rcases hresponse fun i hi => hmeets.write _ _ rfl i (hcall hi) with ⟨hkept, hdurable⟩
      refine ⟨hkept, fun hout => Durable.of_extends hm1.later ?_⟩
      exact hdurable hout fun _ i name hi => hmeets.removal key rfl i name (hcall hi)
    | false =>
      rcases hintact1.notFound key hm' hT with ⟨hkept, hout⟩
      rw [hself1] at hout
      exact ⟨hkept, fun hdeleted => absurd hdeleted hout⟩

/--
A command keeps a state intact, and its response holds.
-/
theorem Intact.execute (h : Intact c m.disk m.self.log) {command : Command}
    {m' : Machine Call Disk Session} (hm' : m' = ((Session.execute c command).run m).machine)
    (hmeets : Meets c command m m') (hT : m'.Always (Strict c)) :
    Intact c m'.disk m'.self.log ∧ ∀ entry reply, command.promise = some (entry, reply) →
      m'.self.out = m.self.replied reply → Durable c entry m m' := by
  cases command with
  | set key value =>
    rcases h.respond _ _ hm' hT (hmeets.write _ _ rfl) with ⟨hkept, hdurable⟩
    refine ⟨hkept, ?_⟩
    intro entry reply hpromise hout
    cases hpromise
    exact hdurable hout fun hset => by contradiction
  | delete key =>
    rcases h.delete hm' hmeets hT with ⟨hkept, hdurable⟩
    refine ⟨hkept, ?_⟩
    intro entry reply hpromise hout
    cases hpromise
    exact hdurable hout
  | get key =>
    refine ⟨?_, fun _ _ hpromise => by contradiction⟩
    have hwp : wp (Strict c) (Session.execute c (.get key))
        (fun _ m' => Intact c m'.disk m'.self.log) (fun _ m' => Intact c m'.disk m'.self.log) m := by
      apply wp_bind
      apply wp_zoomLog_get
      . intro m1 hm1 hself1
        split <;>
        . exact (h.of_reads hm1 hself1).wp_writeln _
      . exact fun m1 hm1 hself1 => h.of_reads hm1 hself1
    rw [hm'] at hT ⊢
    exact hwp.machine hT
  | quit =>
    rw [hm']
    exact ⟨h, fun _ _ hpromise => by contradiction⟩
  | help =>
    refine ⟨?_, fun _ _ hpromise => by contradiction⟩
    rw [hm'] at hT ⊢
    exact (h.wp_writeln commandHint).machine hT

/--
The states that commands, operations of the log and openings of it lead to from an empty directory,
wherever they fail, provided that every command meets its condition.
-/
inductive Acknowledging (c : Crates) : Machine Call Disk Session → Prop where
  | opened (clock faults) {m : Store}
    (hrun : (Log.reopen c).run ((Store.fresh clock).withFaults faults) = .ok () m) :
    Acknowledging c (Session.opened m)
  | executed {m : Machine Call Disk Session} (h : Acknowledging c m) (command : Command)
    (faults : Nat → Option Nat)
    (hmeets : Meets c command (m.withFaults faults)
      ((Session.execute c command).run (m.withFaults faults)).machine) :
    Acknowledging c ((Session.execute c command).run (m.withFaults faults)).machine
  | operated {m : Machine Call Disk Session} (h : Acknowledging c m) (op : Op)
    (faults : Nat → Option Nat)
    (hop : ∀ entry ∈ op.written, Unhindered c m.disk faults m.history.length entry) :
    Acknowledging c ((Session.zoomLog (op.exec c)).run (m.withFaults faults)).machine

theorem Acknowledging.intact {m : Machine Call Disk Session} (h : Acknowledging c m)
    (hT : m.Always (Strict c)) : Intact c m.disk m.self.log := by
  induction h with
  | opened clock faults hrun =>
    have hfresh : Intact c (Store.fresh clock).disk (Store.fresh clock).self :=
      (inv_fresh clock).forget _
    exact (Intact.wp_reopen (m := (Store.fresh clock).withFaults faults) hfresh).of_ok hrun hT
  | @executed m _ command faults hmeets ih =>
    have hbefore := ((Session.execute c command).extends_run _).always hT
    exact (Intact.execute (m := m.withFaults faults) (ih hbefore) rfl hmeets hT).1
  | @operated m _ op faults hop ih =>
    have hbefore := ((Session.zoomLog (op.exec c)).extends_run _).always hT
    exact Intact.zoomLog_exec (m := m.withFaults faults) (ih hbefore) op hop rfl hT

/--
In every run whose commands meet the condition, the response to a `set` or a `delete` is true: if the
writer has all of it, the entry has been written, and a log that is opened afterwards answers with it.
-/
theorem replied_durable {m : Machine Call Disk Session} (h : Acknowledging c m) {command : Command}
    {faults : Nat → Option Nat}
    (hmeets : Meets c command (m.withFaults faults)
      ((Session.execute c command).run (m.withFaults faults)).machine)
    (hT : ((Session.execute c command).run (m.withFaults faults)).machine.Always (Strict c))
    {entry : Entry} {reply : String} (hpromise : command.promise = some (entry, reply))
    (hout : ((Session.execute c command).run (m.withFaults faults)).machine.self.out
      = m.self.replied reply) :
    Durable c entry (m.withFaults faults)
      ((Session.execute c command).run (m.withFaults faults)).machine := by
  have hbefore := ((Session.execute c command).extends_run _).always hT
  have hintact := h.intact hbefore
  exact (Intact.execute (m := m.withFaults faults) hintact rfl hmeets hT).2 entry reply hpromise hout

def emptySession : Machine Call Disk Session :=
  Session.opened emptyStore

-- the state after a command of which the call after `i` others fails
def executeFailing (command : Command) (i : Nat) (m : Machine Call Disk Session) :
    Machine Call Disk Session :=
  ((Session.execute Concrete.crates command).run
    (m.withFaults (failAt (m.history.length + i) 0))).machine

/--
The client has the response, but the write has returned an error, and the value is nowhere.
-/
theorem reply_without_write :
    ((Session.execute Concrete.crates (.set "a" "b")).run
        (emptySession.withFaults (failAt (emptySession.history.length + 2) 0))).value? = none
      ∧ (executeFailing (.set "a" "b") 2 emptySession).self.out
        = emptySession.self.replied "a => b"
      ∧ Store.getReopened Concrete.crates ((executeFailing (.set "a" "b") 2 emptySession).withSelf
        (executeFailing (.set "a" "b") 2 emptySession).self.log) "a" = some none := by
  refine ⟨?_, ?_, ?_⟩ <;> decide +kernel

def executeFaultless (command : Command) (m : Machine Call Disk Session) :
    Machine Call Disk Session :=
  ((Session.execute Concrete.crates command).run (m.withFaults fun _ => none)).machine

theorem meets_faultless {command : Command} {m m' : Machine Call Disk Session}
    (h : ∀ entry reply, command.promise = some (entry, reply) →
      Writable c.toCodec entry ∧ m.disk.wal.length + (encoded c.toCodec entry).length ≤ maxFileLen) :
    Meets c command (m.withFaults fun _ => none) m' := by
  constructor
  . intro entry reply hpromise i _ _
    exact ⟨(h entry reply hpromise).1, (h entry reply hpromise).2, fun _ _ => rfl⟩
  . intro key _ i name _ hfault
    contradiction

def writtenSession : Machine Call Disk Session :=
  executeFaultless (.set "a" "b") emptySession

-- the flush fails where the WAL is to be emptied, behind the table of `a => b`
def flushedSession : Machine Call Disk Session :=
  ((Session.zoomLog (Op.flush.exec Concrete.crates)).run
    (writtenSession.withFaults (failAt (writtenSession.history.length + 7) 0))).machine

/--
A key is deleted that has a value in a file and one in the WAL.
-/
theorem replied_durable_flushed :
    Durable Concrete.crates (.delete "a") (flushedSession.withFaults fun _ => none)
        (executeFaultless (.delete "a") flushedSession)
      ∧ (files flushedSession.disk).map (fileScan Concrete.crates) = [[.set "a" "b"]]
      ∧ replayed Concrete.crates flushedSession.disk.wal = [.set "a" "b"] := by
  have hopened : Acknowledging Concrete.crates emptySession :=
    Acknowledging.opened Nat.succ (fun _ => none) (run_eq_of_value (by decide +kernel))
  have hwritten : Acknowledging Concrete.crates writtenSession := by
    apply hopened.executed (.set "a" "b") fun _ => none
    apply meets_faultless
    intro entry reply hpromise
    cases hpromise
    exact ⟨Writable.of_check _ (by decide +kernel), by decide +kernel⟩
  have hflushed : Acknowledging Concrete.crates flushedSession := by
    apply hwritten.operated .flush (failAt (writtenSession.history.length + 7) 0)
    intro entry hentry
    contradiction
  refine ⟨?_, ?_, ?_⟩
  . have hmeets : Meets Concrete.crates (.delete "a") (flushedSession.withFaults fun _ => none)
        (executeFaultless (.delete "a") flushedSession) := by
      apply meets_faultless
      intro entry reply hpromise
      cases hpromise
      exact ⟨Writable.of_check _ (by decide +kernel), by decide +kernel⟩
    refine replied_durable hflushed hmeets ?_ rfl ?_
    . exact always_strict_of_check (by decide +kernel)
    . change (executeFaultless (.delete "a") flushedSession).self.out
        = flushedSession.self.replied "a deleted"
      decide +kernel
  . decide +kernel
  . decide +kernel

end Session

end Chickadee
