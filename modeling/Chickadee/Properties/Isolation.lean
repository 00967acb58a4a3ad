import Chickadee.Properties.Recovery
import Chickadee.Properties.Server

/-!
This module contains what the clients of a server see whose threads run in any order, where calls fail
and the process dies: the lines take effect one after the other, in the order in which the threads take
the lock, and a failure ends the client whose line it comes from.
-/

namespace Chickadee

open Faulty Faulty.Io Layers Simulation

variable {T : Disk → Prop} {c : Crates}

namespace Views

def values (v : Views) : KeyValues :=
  fun key => (v.live key).bind Entry.value

/--
Operations run one after the other. Where not all is well, one of them does not end well, or something
that comes between them or behind them.
-/
inductive Ran : List Op → Bool → Views → Views → Prop where
  | done (v : Views) : Ran [] true v v
  | stopped (ops : List Op) (v : Views) : Ran ops false v v
  | failed {op : Op} {ops : List Op} {v v' : Views} (h : Exec op false v v') :
    Ran (op :: ops) false v v'
  | next {op : Op} {ops : List Op} {ok : Bool} {v v' v'' : Views} (h : Exec op true v v')
    (hrest : Ran ops ok v' v'') : Ran (op :: ops) ok v v''

end Views

namespace KeyValues

def ops (kvs : KeyValues) : Command → List Op
  | .set key value => [.write (.set key value), .maybeFlush]
  | .delete key =>
    if (kvs key).isSome then [.write (.delete key), .maybeFlush] else [.maybeFlush]
  | .get _ | .quit | .help => []

def lineOps (kvs : KeyValues) (line : String) : List Op :=
  match Command.tryFrom (trim line) with
  | .ok command => kvs.ops command
  | .error _ => []

def response (kvs : KeyValues) (line : String) : Bytes :=
  match kvs.answer line with
  | some (reply, _) => bytesOf (reply ++ "\n")
  | none => []

end KeyValues

-- a client that has received `part` of a response behind the complete ones
structure Peer extends Client where
  part : Bytes

namespace Peer

def connected (input : List Char) : Peer :=
  { unsent := input, replies := [], running := true, part := [] }

def line (self : Peer) : String :=
  String.ofList (splitLine self.unsent).1

def served (self : Peer) (kvs : KeyValues) : Peer :=
  { (self.toClient.pass kvs).1 with part := [] }

def cut (self : Peer) (part : Bytes) : Peer :=
  { unsent := (splitLine self.unsent).2, replies := self.replies, running := false, part := part }

end Peer

inductive Turn (ι : Type) where
  | line (i : ι) (text : String) (ok : Bool)
  | start (inputs : ι → List Char)

structure Shared (ι : Type) where
  views : Views
  peers : ι → Peer

namespace Shared

variable {ι : Type} [DecidableEq ι]

/--
A line that fails ends its client, which receives no more than a part of the response to it. All other
clients are where they were.
-/
inductive Step : Shared ι → Turn ι → Shared ι → Prop where
  | served {s : Shared ι} {i : ι} {v' : Views} (hrunning : (s.peers i).running = true)
    (hran : Views.Ran (s.views.values.lineOps (s.peers i).line) true s.views v') :
    Step s (.line i (s.peers i).line true)
      ⟨v', Function.update s.peers i ((s.peers i).served s.views.values)⟩
  | cut {s : Shared ι} {i : ι} {v' : Views} {part : Bytes}
    (hrunning : (s.peers i).running = true)
    (hran : Views.Ran (s.views.values.lineOps (s.peers i).line) false s.views v')
    (hpart : part <+: s.views.values.response (s.peers i).line) :
    Step s (.line i (s.peers i).line false)
      ⟨v', Function.update s.peers i ((s.peers i).cut part)⟩
  | start {s : Shared ι} (inputs : ι → List Char) :
    Step s (.start inputs) ⟨s.views.reopened, fun i => Peer.connected (inputs i)⟩

end Shared

def sharedSystem (ι : Type) [DecidableEq ι] : System (Shared ι) (Turn ι) where
  init s := s = ⟨⟨fun _ => none, fun _ => none⟩, fun _ => { Peer.connected [] with running := false }⟩
  step := Shared.Step

/-! The threads -/

section Threads

variable {ι : Type} [DecidableEq ι]

inductive Move (ι : Type) where
  | step (i : ι) (stage : Stage) (ok : Bool)
  | start (inputs : ι → List Char)

-- what takes effect is what is done under the lock
def Move.turn : Move ι → Option (Turn ι)
  | .step i (.parsed line) ok => some (.line i line ok)
  | .step _ .reading _ => none
  | .step _ .answered _ => none
  | .start inputs => some (.start inputs)

/--
The files are what they are taken for, no record decodes in the WAL where none has been written, and
no removal of a file fails.
-/
structure RegularLine (c : Crates) (m m' : Machine Call Disk (Threads ι)) (line : String) : Prop where
  strict : m'.Always fun d => Strict c d ∧ OneAppended c m.disk.wal d.wal
  writable : ∀ command, Command.tryFrom (trim line) = .ok command →
    ∀ entry ∈ command.entry, Writable c.toCodec entry
  removed : ∀ name, ¬m'.FailedAt (.removeFile name)

/--
Whichever thread is running takes its next step, or the process dies and a new one is started.
-/
inductive ThreadStep (c : Crates) (m : Machine Call Disk (Threads ι)) :
    Move ι → Machine Call Disk (Threads ι) → Prop where
  | step {m' : Machine Call Disk (Threads ι)} (i : ι) (faults : Nat → Option Nat) (ok : Bool)
    (hrunning : (m.self.runners i).running = true)
    (hrun : (Threads.step c i).run (m.resume faults) = .ok ok m')
    (hregular : ∀ line, m.self.stages i = .parsed line → RegularLine c m m' line) :
    ThreadStep c m (.step i (m.self.stages i) ok) m'
  | start {m' : Machine Call Disk (Threads ι)} (inputs : ι → List Char)
    (hrun : (Threads.start c inputs).run (m.resume fun _ => none) = .ok () m') :
    ThreadStep c m (.start inputs) m'

def threadSystem (c : Crates) (ι : Type) [DecidableEq ι] :
    System (Machine Call Disk (Threads ι)) (Move ι) where
  init m := ∃ clock, m = Threads.stopped clock
  step := ThreadStep c

end Threads

theorem wp_writeln_part (line : String) {m : Machine Call Disk Session}
    {Q : Unit → Machine Call Disk Session → Prop}
    {E : Failure Error → Machine Call Disk Session → Prop}
    (hok : ∀ m', m'.disk = m.disk → m'.self = ⟨m.self.log, m.self.replied line⟩ → Q () m')
    (hfail : ∀ m' part, m'.disk = m.disk → m'.self = ⟨m.self.log, m.self.out ++ part⟩ →
      part <+: bytesOf (line ++ "\n") → E .fault m') :
    wp T (Session.writeln line) Q E m := by
  unfold Session.writeln
  dsimp only
  apply wp_syscall
  . intro a d s hact
    simp only [Prod.mk.injEq] at hact
    rcases hact with ⟨-, rfl, rfl⟩
    exact hok _ rfl rfl
  . simp
  . intro n _
    exact hfail _ _ rfl rfl ((List.take_prefix _ _).trans (List.dropLast_prefix _))

theorem Recoverable.isSet {v : Views} {d : Disk} {log : Log}
    (h : Recoverable c v.live v.durable d log) {key : String} {entry : Entry}
    (hlive : v.live key = some entry) : entry.isSet = true := by
  rw [← h.current.lookup_eq key] at hlive
  unfold lookup at hlive
  split at hlive
  . next e _ =>
    rw [visible_eq, Option.filter_eq_some_iff] at hlive
    exact hlive.2
  . rw [Option.filter_eq_some_iff] at hlive
    exact hlive.2

section Session

variable {m : Machine Call Disk Session} {v : Views} {wal : Contents}

abbrev LineDisk (c : Crates) (wal : Contents) (d : Disk) : Prop :=
  Strict c d ∧ OneAppended c wal d.wal

theorem Recoverable.wp_zoomLog_maybeFlush
    (h : Recoverable c v.live v.durable m.disk m.self.log)
    {Q : Unit → Machine Call Disk Session → Prop}
    {E : Failure Error → Machine Call Disk Session → Prop}
    (hok : ∀ m' v', Views.Exec .maybeFlush true v v' →
      Recoverable c v'.live v'.durable m'.disk m'.self.log → m'.self.out = m.self.out → Q () m')
    (hfail : ∀ e m', ((∀ name, ¬m'.FailedAt (.removeFile name)) →
      ∃ v', Views.Exec .maybeFlush false v v'
        ∧ Recoverable c v'.live v'.durable m'.disk m'.self.log) → m'.self.out = m.self.out → E e m') :
    wp (LineDisk c wal) (Session.zoomLog (Log.maybeFlush c)) Q E m := by
  apply wp_zoomLog
  apply Recoverable.wp_maybeFlush (m := m.withSelf m.self.log) h fun _ hd => hd.1
  . intro m' v' hexec hrec'
    exact hok _ v' hexec hrec' rfl
  . intro e m' hrec'
    refine hfail e _ ?_ rfl
    intro hremoved
    exact hrec' fun name hfailed => absurd hfailed (hremoved name)

theorem Recoverable.wp_record (h : Recoverable c v.live v.durable m.disk m.self.log)
    (hwal : m.disk.wal = wal) {entry : Entry} (hentry : Writable c.toCodec entry)
    {Q : Unit → Machine Call Disk Session → Prop}
    {E : Failure Error → Machine Call Disk Session → Prop}
    (hok : ∀ m' v', Views.Ran [.write entry, .maybeFlush] true v v' →
      Recoverable c v'.live v'.durable m'.disk m'.self.log → m'.self.out = m.self.out → Q () m')
    (hfail : ∀ e m', ((∀ name, ¬m'.FailedAt (.removeFile name)) →
      ∃ v', Views.Ran [.write entry, .maybeFlush] false v v'
        ∧ Recoverable c v'.live v'.durable m'.disk m'.self.log) → m'.self.out = m.self.out → E e m') :
    wp (LineDisk c wal) (do
      Session.zoomLog (Log.write c entry)
      Session.zoomLog (Log.maybeFlush c)) Q E m := by
  apply wp_bind
  apply wp_zoomLog
  apply wp_conclude
  apply Recoverable.wp_write (m := m.withSelf m.self.log) h hentry
  . intro m1 hrec1 hm1
    have hrec1 := hrec1 (hwal ▸ hm1.1.2)
    apply Recoverable.wp_zoomLog_maybeFlush (v := ⟨v.live.write entry, v.durable.write entry⟩) hrec1
    . intro m' v' hexec hrec' hout
      exact hok m' v' (.next (.written entry v) (.next hexec (.done v'))) hrec' hout
    . intro e m' hrec' hout
      apply hfail e m' _ hout
      intro hremoved
      rcases hrec' hremoved with ⟨v', hexec, hrec'⟩
      exact ⟨v', .next (.written entry v) (.failed hexec), hrec'⟩
  . intro e m1 hrec1 hm1
    refine hfail e _ ?_ rfl
    intro _
    cases hrec1 (hwal ▸ hm1.1.2) with
    | inl hrec1 => exact ⟨v, .failed (.lost entry v), hrec1⟩
    | inr hrec1 => exact ⟨_, .failed (.kept entry v), hrec1⟩

/--
What a command does to the maps, whatever fails of it. Its response has been handed over, or a part of
it if it fails.
-/
theorem Recoverable.wp_execute (h : Recoverable c v.live v.durable m.disk m.self.log)
    (hwal : m.disk.wal = wal) {command : Command} (hquit : command ≠ .quit)
    (hentry : ∀ entry ∈ command.entry, Writable c.toCodec entry)
    {Q : Unit → Machine Call Disk Session → Prop}
    {E : Failure Error → Machine Call Disk Session → Prop}
    (hok : ∀ m' v', Views.Ran (v.values.ops command) true v v' →
      Recoverable c v'.live v'.durable m'.disk m'.self.log →
      m'.self.out = m.self.replied (v.values.execute command).1 → Q () m')
    (hfail : ∀ e m' part, ((∀ name, ¬m'.FailedAt (.removeFile name)) →
      ∃ v', Views.Ran (v.values.ops command) false v v'
        ∧ Recoverable c v'.live v'.durable m'.disk m'.self.log) → m'.self.out = m.self.out ++ part →
      part <+: bytesOf ((v.values.execute command).1 ++ "\n") → E e m') :
    wp (LineDisk c wal) (Session.execute c command) Q E m := by
  -- the response stands before the operations, and a part of it if it fails
  have hreply : ∀ {x : Os Session Unit} {m1 : Machine Call Disk Session}, m1.disk = m.disk →
      m1.self = m.self → (∀ m2, m2.disk = m.disk →
        m2.self = ⟨m.self.log, m.self.replied (v.values.execute command).1⟩ →
        wp (LineDisk c wal) x Q E m2) →
      wp (LineDisk c wal) (do
        Session.writeln (v.values.execute command).1
        x) Q E m1 := by
    intro x m1 hdisk1 hself1 hx
    apply wp_bind
    apply wp_writeln_part
    . intro m2 hdisk2 hself2
      apply hx m2 (hdisk2.trans hdisk1)
      rw [hself2, hself1]
    . intro m2 part hdisk2 hself2 hpart
      refine hfail .fault m2 part ?_ ?_ hpart
      . intro _
        refine ⟨v, .stopped _ v, ?_⟩
        rw [hdisk2, hself2, hdisk1, hself1]
        exact h
      . rw [hself2, hself1]
  have hrec : ∀ {m2 : Machine Call Disk Session} {out : Bytes}, m2.disk = m.disk →
      m2.self = ⟨m.self.log, out⟩ → Recoverable c v.live v.durable m2.disk m2.self.log := by
    intro m2 out hdisk2 hself2
    rw [hdisk2, hself2]
    exact h
  have hlast : ∀ {m1 : Machine Call Disk Session}, m1.disk = m.disk → m1.self = m.self →
      v.values.ops command = [] →
      wp (LineDisk c wal) (Session.writeln (v.values.execute command).1) Q E m1 := by
    intro m1 hdisk1 hself1 hops
    rw [← bind_pure_unit (x := Session.writeln _)]
    apply hreply hdisk1 hself1
    intro m2 hdisk2 hself2
    apply wp_pure
    apply hok m2 v _ (hrec hdisk2 hself2)
    . rw [hself2]
    . rw [hops]
      exact .done v
  have hwrites : ∀ {entry : Entry} {m1 : Machine Call Disk Session}, m1.disk = m.disk →
      m1.self = m.self → entry ∈ command.entry →
      v.values.ops command = [.write entry, .maybeFlush] →
      wp (LineDisk c wal) (do
        Session.writeln (v.values.execute command).1
        Session.zoomLog (Log.write c entry)
        Session.zoomLog (Log.maybeFlush c)) Q E m1 := by
    intro entry m1 hdisk1 hself1 hmem hops
    apply hreply hdisk1 hself1
    intro m2 hdisk2 hself2
    apply (hrec hdisk2 hself2).wp_record (by rw [hdisk2, hwal]) (hentry entry hmem)
    . intro m' v' hran hrec' hout
      rw [← hops] at hran
      exact hok m' v' hran hrec' (by rw [hout, hself2])
    . intro e m' hrec' hout
      rw [← hops] at hrec'
      exact hfail e m' _ hrec' (by rw [hout, hself2]; rfl) (List.prefix_refl _)
  cases command with
  | set key value => exact hwrites rfl rfl rfl rfl
  | get key =>
    apply wp_bind
    apply wp_zoomLog_get
    . intro m1 hm1 hself1
      rw [h.current.lookup_eq]
      cases hlive : v.live key with
      | none =>
        have hvalue : v.values key = none := by rw [Views.values, hlive]; rfl
        rw [KeyValues.execute_get_of_none hvalue] at hlast
        exact hlast hm1.disk_eq hself1 rfl
      | some entry =>
        cases entry with
        | delete _ => exact absurd (h.isSet hlive) (by simp)
        | set _ value =>
          have hvalue : v.values key = some value := by rw [Views.values, hlive]; rfl
          rw [KeyValues.execute_get_of_some hvalue] at hlast
          exact hlast hm1.disk_eq hself1 rfl
    . intro m1 hm1 hself1
      refine hfail .fault m1 [] ?_ ?_ List.nil_prefix
      . intro _
        refine ⟨v, .stopped _ v, ?_⟩
        rw [hm1.disk_eq, hself1]
        exact h
      . rw [hself1, List.append_nil]
  | delete key =>
    apply wp_bind
    apply wp_zoomLog_contains
    . intro m1 hm1 hself1
      rw [h.current.lookup_eq]
      cases hlive : v.live key with
      | none =>
        have hvalue : v.values key = none := by rw [Views.values, hlive]; rfl
        have hops : v.values.ops (.delete key) = [.maybeFlush] := by
          rw [KeyValues.ops, hvalue, if_neg (by simp)]
        rw [KeyValues.execute_delete_of_none hvalue] at hreply hok hfail
        apply hreply hm1.disk_eq hself1
        intro m2 hdisk2 hself2
        apply (hrec hdisk2 hself2).wp_zoomLog_maybeFlush
        . intro m' v' hexec hrec' hout
          apply hok m' v' _ hrec' (by rw [hout, hself2])
          rw [hops]
          exact .next hexec (.done v')
        . intro e m' hrec' hout
          refine hfail e m' _ ?_ (by rw [hout, hself2]; rfl) (List.prefix_refl _)
          intro hremoved
          rcases hrec' hremoved with ⟨v', hexec, hrec'⟩
          rw [hops]
          exact ⟨v', .failed hexec, hrec'⟩
      | some entry =>
        cases entry with
        | delete _ => exact absurd (h.isSet hlive) (by simp)
        | set _ value =>
          have hvalue : v.values key = some value := by rw [Views.values, hlive]; rfl
          have hops : v.values.ops (.delete key) = [.write (.delete key), .maybeFlush] := by
            rw [KeyValues.ops, hvalue, if_pos (by rfl)]
          rw [KeyValues.execute_delete_of_some hvalue] at hwrites
          exact hwrites hm1.disk_eq hself1 rfl hops
    . intro m1 hm1 hself1
      refine hfail .fault m1 [] ?_ ?_ List.nil_prefix
      . intro _
        refine ⟨v, .stopped _ v, ?_⟩
        rw [hm1.disk_eq, hself1]
        exact h
      . rw [hself1, List.append_nil]
  | quit => contradiction
  | help => exact hlast rfl rfl rfl

end Session

namespace Runner

variable {m : Machine Call Disk Serving} {v : Views} {wal : Contents}

/--
A thread that is not disturbed between its three steps serves its line as a whole.
-/
theorem pass_eq (c : Crates) : pass c = (do
    let line ← readLine
    if ← answer c line then flush) := by
  have hrespond : ∀ x : Os Session Unit, respond x
      = (do zoomSession x; return true : Os Serving Bool) >>= fun b => if b then flush else pure () := by
    intro x
    rw [bind_assoc]
    rfl
  have hstop : stop
      = (do stop; return false : Os Serving Bool) >>= fun b => if b then flush else pure () := by
    rw [bind_assoc]
    exact (bind_pure_unit (x := stop)).symm
  have hline : ∀ line, handleLine c line = answer c line >>= fun b => if b then flush else pure () := by
    intro line
    unfold handleLine answer
    by_cases hempty : line = ""
    . rw [if_pos hempty, if_pos hempty]
      exact hstop
    . rw [if_neg hempty, if_neg hempty]
      cases Command.tryFrom (trim line) with
      | error e => exact hrespond _
      | ok command =>
        cases command with
        | quit => exact hstop
        | set key value => exact hrespond _
        | get key => exact hrespond _
        | delete key => exact hrespond _
        | help => exact hrespond _
  unfold pass
  simp only [hline]

theorem wp_readLine {Q : String → Machine Call Disk Serving → Prop}
    {E : Failure Error → Machine Call Disk Serving → Prop}
    (hok : ∀ m', m'.disk = m.disk → m'.self = ⟨m.self.log,
        { m.self.runner with reader := (splitLine m.self.runner.reader).2 }⟩ →
      Q (String.ofList (splitLine m.self.runner.reader).1) m')
    (hfail : ∀ m', m'.disk = m.disk → m'.self = m.self → E .fault m') :
    wp T readLine Q E m := by
  apply wp_readCall
  . intro line m' hm' hact
    have hline : String.ofList (splitLine m.self.runner.reader).1 = line :=
      Except.ok.inj (congrArg Prod.fst hact)
    rw [← hline]
    exact hok m' hm'.disk_eq (congrArg Prod.snd hact).symm
  . intro e m' _ hact
    cases hact
  . intro m' hm' hself'
    exact hfail m' hm'.disk_eq hself'

theorem wp_flush {Q : Unit → Machine Call Disk Serving → Prop}
    {E : Failure Error → Machine Call Disk Serving → Prop}
    (hok : ∀ m', m'.disk = m.disk → m'.self = ⟨m.self.log,
      { m.self.runner with flushed := m.self.runner.writer }⟩ → Q () m')
    (hfail : ∀ m', m'.disk = m.disk → m'.self = m.self → E .fault m') :
    wp T flush Q E m := by
  apply wp_readCall
  . intro _ m' hm' hact
    exact hok m' hm'.disk_eq (congrArg Prod.snd hact).symm
  . intro e m' _ hact
    cases hact
  . intro m' hm' hself'
    exact hfail m' hm'.disk_eq hself'

theorem lineOps_empty (kvs : KeyValues) : kvs.lineOps "" = [] := by
  have hempty : Command.tryFrom (trim "") = .error .missingRequiredArguments := by decide
  rw [KeyValues.lineOps, hempty]

theorem answer_cases (c : Crates) (kvs : KeyValues) (line : String) :
    (kvs.answer line = none ∧ answer c line = (do stop; return false) ∧ kvs.lineOps line = [])
      ∨ (∃ reply, kvs.answer line = some (reply, kvs)
        ∧ answer c line = (do zoomSession (Session.writeln reply); return true)
        ∧ kvs.lineOps line = [])
      ∨ ∃ command, Command.tryFrom (trim line) = .ok command ∧ command ≠ .quit
        ∧ kvs.answer line = some (kvs.execute command)
        ∧ answer c line = (do zoomSession (Session.execute c command); return true)
        ∧ kvs.lineOps line = kvs.ops command := by
  by_cases hempty : line = ""
  . rw [hempty, lineOps_empty]
    exact Or.inl ⟨rfl, rfl, rfl⟩
  . unfold KeyValues.answer answer KeyValues.lineOps
    rw [if_neg hempty, if_neg hempty]
    cases Command.tryFrom (trim line) with
    | error e => exact Or.inr (Or.inl ⟨_, rfl, rfl, rfl⟩)
    | ok command =>
      cases command with
      | quit => exact Or.inl ⟨rfl, rfl, rfl⟩
      | set key value => exact Or.inr (Or.inr ⟨_, rfl, by simp, rfl, rfl, rfl⟩)
      | get key => exact Or.inr (Or.inr ⟨_, rfl, by simp, rfl, rfl, rfl⟩)
      | delete key => exact Or.inr (Or.inr ⟨_, rfl, by simp, rfl, rfl, rfl⟩)
      | help => exact Or.inr (Or.inr ⟨_, rfl, by simp, rfl, rfl, rfl⟩)

theorem wp_zoomSession {x : Os Session Unit} {Q : Bool → Machine Call Disk Serving → Prop}
    {E : Failure Error → Machine Call Disk Serving → Prop}
    (hx : wp T x
      (fun _ m1 => Q true (m1.withSelf ⟨m1.self.log, { m.self.runner with writer := m1.self.out }⟩))
      (fun e m1 => E e (m1.withSelf ⟨m1.self.log, { m.self.runner with writer := m1.self.out }⟩))
      (m.withSelf ⟨m.self.log, m.self.runner.writer⟩)) :
    wp T (do zoomSession x; return true) Q E m := by
  apply wp_bind
  apply wp_zoom
  apply wp_mono hx
  . intro _ m1 _ hok
    exact wp_pure hok
  . intro e m1 _ _ hfail
    exact hfail

def unflushed (unsent : List Char) (replies : List String) (writer : Bytes) : Runner :=
  { reading unsent replies with writer := writer }

theorem wp_answer {unsent : List Char} {replies : List String} {line : String}
    (h : Recoverable c v.live v.durable m.disk m.self.log) (hwal : m.disk.wal = wal)
    (hrunner : m.self.runner = reading unsent replies)
    (hentry : ∀ command, Command.tryFrom (trim line) = .ok command →
      ∀ entry ∈ command.entry, Writable c.toCodec entry)
    {Q : Bool → Machine Call Disk Serving → Prop}
    {E : Failure Error → Machine Call Disk Serving → Prop}
    (hstop : ∀ m', v.values.answer line = none → Views.Ran (v.values.lineOps line) true v v →
      Recoverable c v.live v.durable m'.disk m'.self.log →
      m'.self.runner = { reading unsent replies with running := false } → Q false m')
    (hok : ∀ m' v' reply kvs, v.values.answer line = some (reply, kvs) →
      Views.Ran (v.values.lineOps line) true v v' →
      Recoverable c v'.live v'.durable m'.disk m'.self.log →
      m'.self.runner = unflushed unsent replies (transcript (replies ++ [reply])) → Q true m')
    (hfail : ∀ e m' part, ((∀ name, ¬m'.FailedAt (.removeFile name)) →
      ∃ v', Views.Ran (v.values.lineOps line) false v v'
        ∧ Recoverable c v'.live v'.durable m'.disk m'.self.log) →
      m'.self.runner = unflushed unsent replies (transcript replies ++ part) →
      part <+: v.values.response line → E e m') :
    wp (LineDisk c wal) (answer c line) Q E m := by
  rcases answer_cases c v.values line with ⟨hanswer, heq, hops⟩ |
    ⟨reply, hanswer, heq, hops⟩ | ⟨command, hparse, hquit, hanswer, heq, hops⟩
  . rw [heq]
    apply wp_bind
    apply wp_bind
    apply wp_getSelf
    apply wp_setSelf
    apply wp_pure
    apply hstop _ hanswer (by rw [hops]; exact .done v)
    . exact h
    . rw [Machine.withSelf_self, hrunner]
  . rw [heq]
    apply wp_zoomSession
    apply wp_writeln_part
    . intro m1 hdisk1 hself1
      apply hok _ v reply _ hanswer (by rw [hops]; exact .done v)
      . rw [Machine.withSelf_disk, Machine.withSelf_self, hdisk1, hself1]
        exact h
      . rw [Machine.withSelf_self, hself1, hrunner, transcript_append]
        rfl
    . intro m1 part hdisk1 hself1 hpart
      refine hfail _ _ part ?_ ?_ ?_
      . intro _
        refine ⟨v, .stopped _ v, ?_⟩
        rw [Machine.withSelf_disk, Machine.withSelf_self, hdisk1, hself1]
        exact h
      . rw [Machine.withSelf_self, hself1, hrunner]
        rfl
      . rw [KeyValues.response, hanswer]
        exact hpart
  . rw [heq]
    apply wp_zoomSession
    apply Recoverable.wp_execute (m := m.withSelf ⟨m.self.log, m.self.runner.writer⟩) h hwal hquit
      (hentry command hparse)
    . intro m1 v' hran hrec1 hout
      rw [← hops] at hran
      apply hok _ v' _ _ hanswer hran hrec1
      rw [Machine.withSelf_self, hout, hrunner, transcript_append]
      rfl
    . intro e m1 part hrec1 hout hpart
      rw [← hops] at hrec1
      refine hfail e _ part hrec1 ?_ ?_
      . rw [Machine.withSelf_self, hout, hrunner]
        rfl
      . rw [KeyValues.response, hanswer]
        exact hpart

end Runner

/-! The server is what the clients see -/

/--
What a thread has to do with its client: between two lines they are the same, and the client is ahead of
a thread that has read a line, and of one that has not flushed. A thread that has ended may have
a client that goes on, but never says anything.
-/
inductive Follows : Peer → Runner → Stage → Prop where
  | reading (unsent : List Char) (replies : List String) :
    Follows ⟨⟨unsent, replies, true⟩, []⟩ (Runner.reading unsent replies) .reading
  | parsed (unsent : List Char) (replies : List String) :
    Follows ⟨⟨unsent, replies, true⟩, []⟩ (Runner.reading (splitLine unsent).2 replies)
      (.parsed (String.ofList (splitLine unsent).1))
  | answered (unsent : List Char) (replies : List String) (reply : String) :
    Follows ⟨⟨unsent, replies ++ [reply], true⟩, []⟩
      (Runner.unflushed unsent replies (transcript (replies ++ [reply]))) .answered
  | ended {peer : Peer} {runner : Runner} {replies : List String} (stage : Stage)
    (hrunning : runner.running = false)
    (hwriter : runner.writer = transcript peer.replies ++ peer.part)
    (hflushed : runner.flushed = transcript replies) (hreplies : replies <+: peer.replies) :
    Follows peer runner stage

section Server

variable {ι : Type} [DecidableEq ι] {s : Shared ι} {m m' : Machine Call Disk (Threads ι)} {i : ι}

structure Hosts (c : Crates) (s : Shared ι) (m : Machine Call Disk (Threads ι)) : Prop where
  recoverable : Recoverable c s.views.live s.views.durable m.disk m.self.log
  follows : ∀ i, Follows (s.peers i) (m.self.runners i) (m.self.stages i)

theorem Threads.wp_step {Q : Bool → Machine Call Disk (Threads ι) → Prop}
    (h : wp T (Threads.advance c i) (fun _ => Q true)
      (fun _ m' => Q false (m'.withSelf (Threads.put i m'.self
        ⟨m'.self.log, { m'.self.runners i with running := false }⟩))) m) :
    wp T (Threads.step c i) Q (fun _ _ => False) m := by
  unfold Threads.step
  apply wp_bind
  apply wp_attempt
  apply wp_mono h
  . intro _ m1 _ hok
    exact wp_pure hok
  . intro e m1 _ _ hfail
    apply wp_bind
    apply wp_zoom
    apply wp_bind
    apply wp_getSelf
    apply wp_setSelf
    exact wp_pure hfail

theorem Threads.wp_goto {stage : Stage} {Q : Unit → Machine Call Disk (Threads ι) → Prop}
    {E : Failure Error → Machine Call Disk (Threads ι) → Prop}
    (h : Q () (m.withSelf { m.self with stages := Function.update m.self.stages i stage })) :
    wp T (Threads.goto i stage) Q E m := by
  unfold Threads.goto
  apply wp_bind
  apply wp_getSelf
  exact wp_setSelf h

namespace Hosts

variable {v' : Views} {peer : Peer} {m1 : Machine Call Disk Runner.Serving}

theorem update (h : Hosts c s m) (hrec : Recoverable c v'.live v'.durable m'.disk m'.self.log)
    (hfollows : Follows peer (m'.self.runners i) (m'.self.stages i))
    (hothers : ∀ j, j ≠ i → m'.self.runners j = m.self.runners j
      ∧ m'.self.stages j = m.self.stages j) :
    Hosts c ⟨v', Function.update s.peers i peer⟩ m' := by
  refine ⟨hrec, ?_⟩
  intro j
  dsimp only
  by_cases hj : j = i
  . rw [hj, Function.update_self]
    exact hfollows
  . rw [Function.update_of_ne hj, (hothers j hj).1, (hothers j hj).2]
    exact h.follows j

theorem of_update (h : Hosts c ⟨s.views, Function.update s.peers i (s.peers i)⟩ m) :
    Hosts c s m := by
  rw [Function.update_eq_self] at h
  exact h

theorem moved (h : Hosts c s m) (hrec : Recoverable c v'.live v'.durable m1.disk m1.self.log)
    {stage : Stage} (hfollows : Follows peer m1.self.runner stage) :
    Hosts c ⟨v', Function.update s.peers i peer⟩ (m1.withSelf { Threads.put i m.self m1.self with
      stages := Function.update m.self.stages i stage }) := by
  apply h.update hrec
  . change Follows _ (Function.update m.self.runners i _ i) (Function.update m.self.stages i _ i)
    rw [Function.update_self, Function.update_self]
    exact hfollows
  . intro j hj
    exact ⟨Function.update_of_ne hj _ _, Function.update_of_ne hj _ _⟩

theorem ended (h : Hosts c s m) (hrec : Recoverable c v'.live v'.durable m1.disk m1.self.log)
    (hfollows : ∀ stage, Follows peer { m1.self.runner with running := false } stage) :
    Hosts c ⟨v', Function.update s.peers i peer⟩ (m1.withSelf
      (Threads.put i (Threads.put i m.self m1.self) ⟨m1.self.log,
        { (Threads.put i m.self m1.self).runners i with running := false }⟩)) := by
  apply h.update hrec
  . change Follows _ (Function.update (Function.update m.self.runners i _) i
      { Function.update m.self.runners i m1.self.runner i with running := false } i) _
    rw [Function.update_self, Function.update_self]
    exact hfollows _
  . intro j hj
    refine ⟨?_, rfl⟩
    change Function.update (Function.update _ i _) i _ j = _
    rw [Function.update_of_ne hj, Function.update_of_ne hj]

section Step

variable {unsent : List Char} {replies : List String} {faults : Nat → Option Nat} {ok : Bool}

theorem step_reading (h : Hosts c s m) (hpeer : s.peers i = ⟨⟨unsent, replies, true⟩, []⟩)
    (hrunner : m.self.runners i = Runner.reading unsent replies)
    (hstage : m.self.stages i = .reading)
    (hrun : (Threads.step c i).run (m.resume faults) = .ok ok m') : Hosts c s m' := by
  have hwp : wp (fun _ => True) (Threads.step c i) (fun _ m' => Hosts c s m')
      (fun _ _ => False) (m.resume faults) := by
    apply Threads.wp_step
    unfold Threads.advance
    apply wp_bind
    apply wp_getSelf
    have hstage' : (m.resume faults).self.stages i = .reading := hstage
    rw [hstage']
    apply wp_bind
    apply wp_zoom
    apply Runner.wp_readLine
    . intro m1 hdisk1 hself1
      apply Threads.wp_goto
      apply of_update
      apply h.moved
      . rw [hdisk1, hself1]
        exact h.recoverable
      . rw [hself1, hpeer]
        change Follows _ { m.self.runners i with reader := (splitLine (m.self.runners i).reader).2 }
          (.parsed (String.ofList (splitLine (m.self.runners i).reader).1))
        rw [hrunner]
        exact .parsed unsent replies
    . intro m1 hdisk1 hself1
      apply of_update
      apply h.ended
      . rw [hdisk1, hself1]
        exact h.recoverable
      . intro stage
        rw [hself1, hpeer]
        change Follows _ { m.self.runners i with running := false } _
        rw [hrunner]
        exact .ended _ rfl (List.append_nil _).symm rfl (List.prefix_refl _)
  exact hwp.of_ok hrun ⟨trivial, fun _ _ => trivial⟩

theorem step_answered {reply : String} (h : Hosts c s m)
    (hpeer : s.peers i = ⟨⟨unsent, replies ++ [reply], true⟩, []⟩)
    (hrunner : m.self.runners i
      = Runner.unflushed unsent replies (transcript (replies ++ [reply])))
    (hstage : m.self.stages i = .answered)
    (hrun : (Threads.step c i).run (m.resume faults) = .ok ok m') : Hosts c s m' := by
  have hwp : wp (fun _ => True) (Threads.step c i) (fun _ m' => Hosts c s m')
      (fun _ _ => False) (m.resume faults) := by
    apply Threads.wp_step
    unfold Threads.advance
    apply wp_bind
    apply wp_getSelf
    have hstage' : (m.resume faults).self.stages i = .answered := hstage
    rw [hstage']
    apply wp_bind
    apply wp_zoom
    apply Runner.wp_flush
    . intro m1 hdisk1 hself1
      apply Threads.wp_goto
      apply of_update
      apply h.moved
      . rw [hdisk1, hself1]
        exact h.recoverable
      . rw [hself1, hpeer]
        change Follows _ { m.self.runners i with flushed := (m.self.runners i).writer } _
        rw [hrunner]
        exact .reading unsent (replies ++ [reply])
    . intro m1 hdisk1 hself1
      apply of_update
      apply h.ended
      . rw [hdisk1, hself1]
        exact h.recoverable
      . intro stage
        rw [hself1, hpeer]
        change Follows _ { m.self.runners i with running := false } _
        rw [hrunner]
        exact .ended _ rfl (List.append_nil _).symm rfl (List.prefix_append _ _)
  exact hwp.of_ok hrun ⟨trivial, fun _ _ => trivial⟩

theorem step_parsed (h : Hosts c s m) (hpeer : s.peers i = ⟨⟨unsent, replies, true⟩, []⟩)
    (hrunner : m.self.runners i = Runner.reading (splitLine unsent).2 replies)
    {line : String} (hline : line = String.ofList (splitLine unsent).1)
    (hstage : m.self.stages i = .parsed line)
    (hrun : (Threads.step c i).run (m.resume faults) = .ok ok m')
    (hregular : RegularLine c m m' line) :
    ∃ s', Shared.Step s (.line i line ok) s' ∧ Hosts c s' m' := by
  have hrunning : (s.peers i).running = true := by rw [hpeer]
  have hline' : (s.peers i).line = line := by rw [hpeer, hline]; rfl
  rw [← hline']
  have hwp : wp (LineDisk c m.disk.wal) (Threads.step c i)
      (fun ok m' => (∀ name, ¬m'.FailedAt (.removeFile name)) →
        ∃ s', Shared.Step s (.line i (s.peers i).line ok) s' ∧ Hosts c s' m')
      (fun _ _ => False) (m.resume faults) := by
    apply Threads.wp_step
    unfold Threads.advance
    apply wp_bind
    apply wp_getSelf
    have hstage' : (m.resume faults).self.stages i = .parsed line := hstage
    rw [hstage']
    apply wp_bind
    apply wp_zoom
    apply Runner.wp_answer (m := (m.resume faults).withSelf ⟨m.self.log, m.self.runners i⟩)
      h.recoverable rfl hrunner hregular.writable
    . intro m1 hanswer hran hrec1 hrunner1
      apply wp_pure
      intro _
      rw [← hline'] at hran
      refine ⟨_, .served hrunning hran, ?_⟩
      have hserved : (s.peers i).served s.views.values
          = ⟨⟨(splitLine unsent).2, replies, false⟩, []⟩ := by
        rw [hline] at hanswer
        rw [hpeer, Peer.served, Client.pass, hanswer]
      rw [hserved]
      apply h.update
      . exact hrec1
      . change Follows _ (Function.update m.self.runners i m1.self.runner i) _
        rw [Function.update_self, hrunner1]
        exact .ended _ rfl (List.append_nil _).symm rfl (List.prefix_refl _)
      . intro j hj
        exact ⟨Function.update_of_ne hj _ _, rfl⟩
    . intro m1 v' reply kvs hanswer hran hrec1 hrunner1
      apply Threads.wp_goto
      intro _
      rw [← hline'] at hran
      refine ⟨_, .served hrunning hran, ?_⟩
      have hserved : (s.peers i).served s.views.values
          = ⟨⟨(splitLine unsent).2, replies ++ [reply], true⟩, []⟩ := by
        rw [hline] at hanswer
        rw [hpeer, Peer.served, Client.pass, hanswer]
      rw [hserved]
      apply h.moved hrec1
      rw [hrunner1]
      exact .answered (splitLine unsent).2 replies reply
    . intro e m1 part hrec1 hrunner1 hpart hremoved
      rw [← hline'] at hrec1 hpart
      rcases hrec1 hremoved with ⟨v', hran, hrec1⟩
      refine ⟨_, .cut hrunning hran hpart, ?_⟩
      apply h.ended hrec1
      intro stage
      rw [hrunner1, hpeer]
      exact .ended _ rfl rfl rfl (List.prefix_refl _)
  exact hwp.of_ok hrun hregular.strict hregular.removed

end Step

theorem step (h : Hosts c s m) {faults : Nat → Option Nat} {ok : Bool}
    (hrunning : (m.self.runners i).running = true)
    (hrun : (Threads.step c i).run (m.resume faults) = .ok ok m')
    (hregular : ∀ line, m.self.stages i = .parsed line → RegularLine c m m' line) :
    ∃ s', (sharedSystem ι).Moves s (Move.turn (.step i (m.self.stages i) ok)) s' ∧ Hosts c s' m' := by
  have hfollows := h.follows i
  generalize hpeer : s.peers i = peer at hfollows
  generalize hrunner : m.self.runners i = runner at hfollows hrunning
  generalize hstage : m.self.stages i = stage at hfollows hregular ⊢
  cases hfollows with
  | reading unsent replies => exact ⟨s, rfl, h.step_reading hpeer hrunner hstage hrun⟩
  | parsed unsent replies => exact h.step_parsed hpeer hrunner rfl hstage hrun (hregular _ rfl)
  | answered unsent replies reply => exact ⟨s, rfl, h.step_answered hpeer hrunner hstage hrun⟩
  | ended stage hended =>
    rw [hended] at hrunning
    contradiction

omit [DecidableEq ι] in
theorem step_start (h : Hosts c s m) (inputs : ι → List Char)
    (hrun : (Threads.start c inputs).run (m.resume fun _ => none) = .ok () m') :
    Hosts c ⟨s.views.reopened, fun i => Peer.connected (inputs i)⟩ m' := by
  have hopen := Recoverable.run_reopen (m := (m.resume fun _ => none).withSelf m.self.log)
    h.recoverable fun _ => rfl
  rcases hopen with ⟨m1, hrun1, hrec1⟩
  have hwp : wp (fun _ => True) (Threads.start c inputs)
      (fun _ m' => Hosts c ⟨s.views.reopened, fun i => Peer.connected (inputs i)⟩ m')
      (fun _ _ => True) (m.resume fun _ => none) := by
    unfold Threads.start
    apply wp_bind
    apply wp_zoom
    apply wp_of_run hrun1
    apply wp_bind
    apply wp_getSelf
    apply wp_setSelf
    exact ⟨hrec1, fun i => .reading (inputs i) []⟩
  exact hwp.of_ok hrun ⟨trivial, fun _ _ => trivial⟩

end Hosts

theorem forward_shared (c : Crates) :
    Simulation.Forward (threadSystem c ι) (sharedSystem ι) Move.turn (fun m s => Hosts c s m) := by
  constructor
  . rintro m ⟨clock, rfl⟩
    refine ⟨_, rfl, recoverable_fresh clock, ?_⟩
    intro i
    exact .ended .reading rfl rfl rfl (List.prefix_refl [])
  . intro m l m' s h hstep
    cases hstep with
    | step i faults ok hrunning hrun hregular => exact h.step hrunning hrun hregular
    | start inputs hrun => exact ⟨_, .start inputs, h.step_start inputs hrun⟩

def Threads.afterStep (c : Crates) (m : Machine Call Disk (Threads ι)) (i : ι)
    (faults : Nat → Option Nat) : Machine Call Disk (Threads ι) :=
  ((Threads.step c i).run (m.resume faults)).machine

def Threads.afterStart (c : Crates) (m : Machine Call Disk (Threads ι)) (inputs : ι → List Char) :
    Machine Call Disk (Threads ι) :=
  ((Threads.start c inputs).run (m.resume fun _ => none)).machine

def lineDiskCheck (c : Crates) (wal : Contents) (d : Disk) : Bool :=
  strictCheck c d && appendedCheck c wal d.wal

theorem LineDisk.of_check {wal : Contents} {d : Disk} (h : lineDiskCheck c wal d = true) :
    LineDisk c wal d := by
  unfold lineDiskCheck at h
  rw [Bool.and_eq_true] at h
  exact ⟨Strict.of_check h.1, OneAppended.of_check h.2⟩

def lineCheck (c : Crates) (m m' : Machine Call Disk (Threads ι)) (line : String) : Bool :=
  lineDiskCheck c m.disk.wal m'.disk && (m'.history.all fun s =>
    lineDiskCheck c m.disk.wal s.before && match s.call with
      | .removeFile _ => false
      | _ => true)
    && match Command.tryFrom (trim line) with
      | .ok command => command.entry.all fun entry => writableCheck c.toCodec entry
      | .error _ => true

omit [DecidableEq ι] in
theorem RegularLine.of_check {line : String} (h : lineCheck c m m' line = true) :
    RegularLine c m m' line := by
  unfold lineCheck at h
  simp only [Bool.and_eq_true, List.all_eq_true] at h
  rcases h with ⟨⟨hdisk, hhistory⟩, hwritable⟩
  refine ⟨⟨LineDisk.of_check hdisk, fun s hs => LineDisk.of_check (hhistory s hs).1⟩, ?_, ?_⟩
  . intro command hparse entry hentry
    rw [hparse] at hwritable
    dsimp only at hwritable
    rw [Option.mem_def.mp hentry] at hwritable
    exact Writable.of_check _ hwritable
  . rintro name ⟨before, history, hcalls, -⟩
    have hcall := (hhistory ⟨.removeFile name, before⟩
      (by rw [hcalls]; exact List.mem_cons_self)).2
    exact Bool.false_ne_true hcall

def stepCheck (c : Crates) (m : Machine Call Disk (Threads ι)) (i : ι) (faults : Nat → Option Nat)
    (stage : Stage) (ok : Bool) : Bool :=
  (m.self.runners i).running && m.self.stages i = stage
    && ((Threads.step c i).run (m.resume faults)).value? = some ok
    && match stage with
      | .parsed line => lineCheck c m (Threads.afterStep c m i faults) line
      | _ => true

theorem reaches_step {ls : List (Move ι)} (h : (threadSystem c ι).Reaches ls m) (i : ι)
    (faults : Nat → Option Nat) (stage : Stage) (ok : Bool)
    (hcheck : stepCheck c m i faults stage ok = true) :
    (threadSystem c ι).Reaches (ls ++ [.step i stage ok]) (Threads.afterStep c m i faults) := by
  unfold stepCheck at hcheck
  simp only [Bool.and_eq_true, decide_eq_true_eq] at hcheck
  rcases hcheck with ⟨⟨⟨hrunning, rfl⟩, hvalue⟩, hline⟩
  apply h.step
  apply ThreadStep.step i faults ok hrunning (run_eq_of_value hvalue)
  intro line hstage
  rw [hstage] at hline
  exact RegularLine.of_check hline

theorem reaches_start {ls : List (Move ι)} (h : (threadSystem c ι).Reaches ls m)
    (inputs : ι → List Char)
    (hvalue : ((Threads.start c inputs).run (m.resume fun _ => none)).value? = some ()) :
    (threadSystem c ι).Reaches (ls ++ [.start inputs]) (Threads.afterStart c m inputs) :=
  h.step (.start inputs (run_eq_of_value hvalue))

def firstInputs : Bool → List Char
  | false => "set a b\nget a\n".toList
  | true => "set x y\nget x\n".toList

/--
Both clients have sent a line when the second one takes the lock, and is cut: only a part of its record
gets to the WAL. The first one is served before the process dies.
-/
def sampleThreads : Machine Call Disk (Threads Bool) :=
  let m := Threads.afterStart Concrete.crates (Threads.stopped Nat.succ) firstInputs
  let m := Threads.afterStep Concrete.crates m false fun _ => none
  let m := Threads.afterStep Concrete.crates m true fun _ => none
  let m := Threads.afterStep Concrete.crates m true (failAt 2 31)
  let m := Threads.afterStep Concrete.crates m false fun _ => none
  Threads.afterStart Concrete.crates m fun _ => "get a\n".toList

def sampleMoves : List (Move Bool) :=
  [.start firstInputs, .step false .reading true, .step true .reading true,
    .step true (.parsed "set x y\n") false, .step false (.parsed "set a b\n") true,
    .start fun _ => "get a\n".toList]

theorem reaches_sampleThreads :
    (threadSystem Concrete.crates Bool).Reaches sampleMoves sampleThreads := by
  have hstopped : (threadSystem Concrete.crates Bool).Reaches [] (Threads.stopped Nat.succ) :=
    .init ⟨Nat.succ, rfl⟩
  have hstart := reaches_start hstopped firstInputs (by decide +kernel)
  have hread := reaches_step hstart false (fun _ => none) .reading true (by decide +kernel)
  have hread' := reaches_step hread true (fun _ => none) .reading true (by decide +kernel)
  have hcut := reaches_step hread' true (failAt 2 31) (.parsed "set x y\n") false (by decide +kernel)
  have hset := reaches_step hcut false (fun _ => none) (.parsed "set a b\n") true (by decide +kernel)
  exact reaches_start hset (fun _ => "get a\n".toList) (by decide +kernel)

/--
Every run of the threads with regular lines, whatever fails in it and whenever the process dies, is a
run of the shared maps, in which the lines are answered one after the other: each client has received whole responses of
the live map and at most a part of one more, which it has where its own line failed.
-/
theorem reaches_shared {ls : List (Move ι)} (h : (threadSystem c ι).Reaches ls m) :
    ∃ s, (sharedSystem ι).Reaches (ls.filterMap Move.turn) s
      ∧ (∀ i, Follows (s.peers i) (m.self.runners i) (m.self.stages i))
      ∧ ∀ key, Store.get c (m.withSelf m.self.log) key = some (s.views.live key)
        ∧ Store.getReopened c (m.withSelf m.self.log) key = some (s.views.durable key) := by
  rcases (forward_shared c).reaches h with ⟨s, hs, hhosts⟩
  have hrec := hhosts.recoverable
  exact ⟨s, hs, hhosts.follows, fun key =>
    ⟨Recoverable.get_eq (m := m.withSelf m.self.log) hrec key,
      Recoverable.getReopened_eq (m := m.withSelf m.self.log) hrec key⟩⟩

/--
The client that was cut has received the response to its `set`, which has got lost.
-/
theorem reaches_shared_sampleThreads :
    ∃ s, (sharedSystem Bool).Reaches [.start firstInputs, .line true "set x y\n" false,
        .line false "set a b\n" true, .start fun _ => "get a\n".toList] s
      ∧ s.views.live "a" = some (.set "a" "b") ∧ s.views.live "x" = none := by
  rcases reaches_shared reaches_sampleThreads with ⟨s, hs, -, hget⟩
  have ha : Store.get Concrete.crates (sampleThreads.withSelf sampleThreads.self.log) "a"
      = some (some (.set "a" "b")) := by decide +kernel
  have hx : Store.get Concrete.crates (sampleThreads.withSelf sampleThreads.self.log) "x"
      = some none := by decide +kernel
  rw [(hget "a").1] at ha
  rw [(hget "x").1] at hx
  exact ⟨s, hs, Option.some.inj ha, Option.some.inj hx⟩

namespace Views

variable {key : String} {r : Option Entry} {v v' : Views}

def Agree (v : Views) (key : String) (r : Option Entry) : Prop :=
  v.live key = r ∧ v.durable key = r

theorem Agree.exec {op : Op} {ok : Bool} (h : v.Agree key r) (hexec : Exec op ok v v')
    (hop : ∀ entry ∈ op.written, entry.key ≠ key) : v'.Agree key r := by
  have hwrite : ∀ {entry : Entry}, op = .write entry → ∀ spec : Spec,
      spec.write entry key = spec key := by
    rintro entry rfl spec
    exact if_neg fun heq => hop entry rfl heq.symm
  cases hexec with
  | written entry => exact ⟨(hwrite rfl _).trans h.1, (hwrite rfl _).trans h.2⟩
  | lost entry => exact h
  | kept entry => exact ⟨h.1, (hwrite rfl _).trans h.2⟩
  | flushed ok v hop => exact ⟨h.1, h.1⟩
  | unchanged v hop => exact h
  | reopened v => exact ⟨h.2, h.2⟩

theorem Agree.ran {ops : List Op} {ok : Bool} (h : v.Agree key r) (hran : Ran ops ok v v')
    (hops : ∀ op ∈ ops, ∀ entry ∈ op.written, entry.key ≠ key) : v'.Agree key r := by
  induction hran with
  | done v => exact h
  | stopped ops v => exact h
  | failed hexec => exact h.exec hexec (hops _ List.mem_cons_self)
  | next hexec _ ih =>
    apply ih (h.exec hexec (hops _ List.mem_cons_self))
    exact fun op hop => hops op (List.mem_cons_of_mem _ hop)

theorem agree_of_ran_set {kvs : KeyValues} {value : String}
    (hran : Ran (kvs.ops (.set key value)) true v v') : v'.Agree key (some (.set key value)) := by
  cases hran with
  | next hexec hrest =>
    cases hexec with
    | written entry =>
      have hagree : Agree ⟨v.live.write (.set key value), v.durable.write (.set key value)⟩ key
          (some (.set key value)) := ⟨if_pos rfl, if_pos rfl⟩
      apply hagree.ran hrest
      intro op hop entry hentry
      rw [List.mem_singleton.mp hop] at hentry
      contradiction
    | flushed ok v hop => simp at hop
    | unchanged v hop => simp at hop

end Views

theorem KeyValues.entry_of_mem_ops {kvs : KeyValues} {command : Command} {op : Op} {entry : Entry}
    (hop : op ∈ kvs.ops command) (hentry : entry ∈ op.written) : entry ∈ command.entry := by
  have hflush : ∀ {op : Op}, op ∈ [Op.maybeFlush] → entry ∉ op.written := by
    intro op hop
    rw [List.mem_singleton.mp hop]
    exact nofun
  cases command with
  | set key value =>
    cases List.mem_cons.mp hop with
    | inl heq =>
      rw [heq] at hentry
      exact hentry
    | inr hmem => exact absurd hentry (hflush hmem)
  | delete key =>
    rw [ops] at hop
    split at hop
    . cases List.mem_cons.mp hop with
      | inl heq =>
        rw [heq] at hentry
        exact hentry
      | inr hmem => exact absurd hentry (hflush hmem)
    . exact absurd hentry (hflush hop)
  | get key => exact absurd hop (List.not_mem_nil)
  | quit => exact absurd hop (List.not_mem_nil)
  | help => exact absurd hop (List.not_mem_nil)

theorem KeyValues.entry_of_mem_lineOps {kvs : KeyValues} {line : String} {op : Op} {entry : Entry}
    (hop : op ∈ kvs.lineOps line) (hentry : entry ∈ op.written) :
    ∃ command, Command.tryFrom (trim line) = .ok command ∧ entry ∈ command.entry := by
  rw [lineOps] at hop
  cases hparse : Command.tryFrom (trim line) with
  | error e =>
    rw [hparse] at hop
    exact absurd hop (List.not_mem_nil)
  | ok command =>
    rw [hparse] at hop
    exact ⟨command, rfl, entry_of_mem_ops hop hentry⟩

def Turn.Writes (key : String) : Turn ι → Prop
  | .line _ text _ => ∃ command, Command.tryFrom (trim text) = .ok command
      ∧ ∃ entry ∈ command.entry, entry.key = key
  | .start _ => False

/--
A `set` of the key has come to its end, and no line since then has asked to write at it.
-/
def Held (key value : String) (ls : List (Turn ι)) : Prop :=
  ∃ before i text after, ls = before ++ .line i text true :: after
    ∧ Command.tryFrom (trim text) = .ok (.set key value) ∧ ∀ t ∈ after, ¬t.Writes key

omit [DecidableEq ι] in
theorem Held.cases_append {key value : String} {ls : List (Turn ι)} {t : Turn ι}
    (h : Held key value (ls ++ [t])) : (Held key value ls ∧ ¬t.Writes key)
      ∨ ∃ i text, t = .line i text true ∧ Command.tryFrom (trim text) = .ok (.set key value) := by
  rcases h with ⟨before, i, text, after, heq, hparse, hafter⟩
  induction after using List.reverseRecOn with
  | nil =>
    rw [← List.concat_eq_append, ← List.concat_eq_append, List.concat_inj] at heq
    exact Or.inr ⟨i, text, heq.2, hparse⟩
  | append_singleton after t' _ =>
    rw [← List.cons_append, ← List.append_assoc, ← List.concat_eq_append, ← List.concat_eq_append,
      List.concat_inj] at heq
    rcases heq with ⟨rfl, rfl⟩
    refine Or.inl ⟨⟨before, i, text, after, rfl, hparse, ?_⟩, ?_⟩
    . exact fun t ht => hafter t (List.mem_append_left _ ht)
    . exact hafter t (List.mem_append_right _ (List.mem_singleton_self _))

theorem invariant_held : (sharedSystem ι).Invariant fun ls s =>
    ∀ key value, Held key value ls → s.views.Agree key (some (.set key value)) := by
  constructor
  . rintro s rfl key value ⟨before, i, text, after, heq, -⟩
    cases before <;> contradiction
  . intro ls s t s' _ h hstep key value hheld
    -- a line that writes elsewhere does not matter, whether it fails or not
    have hquiet : ∀ {i : ι} {ok : Bool} {v' : Views},
        Views.Ran (s.views.values.lineOps (s.peers i).line) ok s.views v' →
        Held key value ls → ¬Turn.Writes key (.line i (s.peers i).line ok) →
        v'.Agree key (some (.set key value)) := by
      intro i ok v' hran hheld hwrites
      apply (h key value hheld).ran hran
      intro op hop entry hentry heq
      rcases KeyValues.entry_of_mem_lineOps hop hentry with ⟨command, hparse, hmem⟩
      exact hwrites ⟨command, hparse, entry, hmem, heq⟩
    cases hheld.cases_append with
    | inl hold =>
      cases hstep with
      | served _ hran => exact hquiet hran hold.1 hold.2
      | cut _ hran _ => exact hquiet hran hold.1 hold.2
      | start inputs => exact ⟨(h key value hold.1).2, (h key value hold.1).2⟩
    | inr hnew =>
      rcases hnew with ⟨i, text, rfl, hparse⟩
      cases hstep with
      | served _ hran =>
        rw [KeyValues.lineOps, hparse] at hran
        exact Views.agree_of_ran_set hran

/--
Once a `set` has come to its end under the lock in such a run, the value stays, in whatever order the threads run,
whatever fails for other clients and however often the process dies, until a line that asks to write
at its key takes the lock.
-/
theorem served_set_kept {ls : List (Move ι)} (h : (threadSystem c ι).Reaches ls m)
    {key value : String} (hheld : Held key value (ls.filterMap Move.turn)) :
    Store.get c (m.withSelf m.self.log) key = some (some (.set key value))
      ∧ Store.getReopened c (m.withSelf m.self.log) key = some (some (.set key value)) := by
  rcases (forward_shared c).of_invariant invariant_held h with ⟨s, hs, hhosts⟩
  have hrec := hhosts.recoverable
  rcases hs key value hheld with ⟨hlive, hdurable⟩
  constructor
  . rw [Recoverable.get_eq (m := m.withSelf m.self.log) hrec, hlive]
  . rw [Recoverable.getReopened_eq (m := m.withSelf m.self.log) hrec, hdurable]

theorem served_set_kept_sampleThreads :
    Store.get Concrete.crates (sampleThreads.withSelf sampleThreads.self.log) "a"
        = some (some (.set "a" "b"))
      ∧ Store.getReopened Concrete.crates (sampleThreads.withSelf sampleThreads.self.log) "a"
        = some (some (.set "a" "b")) := by
  apply served_set_kept reaches_sampleThreads
  refine ⟨[.start firstInputs, .line true "set x y\n" false], false, "set a b\n", _, rfl,
    by decide +kernel, ?_⟩
  intro t ht
  rw [List.mem_singleton.mp ht]
  exact not_false

end Server

end Chickadee
