import Chickadee.Lemmas.Command
import Chickadee.Lemmas.KeyValues

/-!
This module contains what the clients of a server do to the store, step by step along the map that they
see.
-/

namespace Chickadee

open Faulty Faulty.Io Layers MemTable

variable {T : Disk → Prop} {c : Crates} {spec : Spec}

def IoFailure (e : Failure Error) : Prop :=
  e = .fault ∨ e = .raised .fileTooLarge

structure Ready (c : Crates) (spec : Spec) (d : Disk) (log : Log) : Prop where
  inv : Inv c Set.univ spec d log
  settled : Settled c d log

namespace Ready

theorem wp_maybeFlush {m : Machine Call Disk Log} (h : Inv c Set.univ spec m.disk m.self)
    (haccounted : Accounted c m.disk m.self) (hT : ∀ d, T d → Sound c d) :
    wp T (Log.maybeFlush c) (fun _ m' => Ready c spec m'.disk m'.self)
      (fun e _ => IoFailure e) m := by
  unfold Log.maybeFlush
  apply wp_bind
  apply wp_getSelf
  split
  . unfold Log.flush
    apply wp_bind
    apply h.wp_flushTables hT
    . intro m1 _ hinv1 hnew1 hwal1 _ _
      apply wp_bind
      apply wp_getSelf
      split
      . apply wp_selfless selfless_compact
        apply hinv1.wp_compact hT
        . intro m' _ hwal hinv hself
          rw [hself]
          exact ⟨hinv, Accounted.empty (hwal.trans hwal1) hinv1.path_eq hnew1⟩
        . intro e m' _ _ _ he _
          exact he
      . apply wp_pure
        exact ⟨hinv1, Accounted.empty hwal1 hinv1.path_eq hnew1⟩
    . intro e m' _ _ he
      rcases he with he | he | hlong
      . exact Or.inl he
      . exact Or.inr he
      . exact absurd hlong (Nat.not_le.mpr haccounted.small)
  . next hflush =>
    apply wp_pure
    exact ⟨h, haccounted, not_shouldFlush_iff.mp hflush⟩

theorem wp_record {m : Machine Call Disk Session} (h : Ready c spec m.disk m.self.log)
    (hT : ∀ d, T d → Sound c d) {entry : Entry} (hentry : Fits c entry) :
    wp T (do
      Session.zoomLog (Log.write c entry)
      Session.zoomLog (Log.maybeFlush c))
      (fun _ m' => Ready c (spec.write entry) m'.disk m'.self.log ∧ m'.self.out = m.self.out)
      (fun e _ => IoFailure e) m := by
  apply wp_bind
  apply wp_zoomLog
  apply Chickadee.wp_write hentry.1 h.inv.path_eq h.inv.stored
  . intro m1 new _ hnew hdisk1 hpath1 hmemtable1 _
    have hinv1 : Inv c Set.univ (spec.write entry) m1.disk m1.self := by
      rw [hdisk1]
      exact h.inv.append hentry.1 hnew hpath1 hmemtable1
    have haccounted1 : Accounted c m1.disk m1.self := by
      rw [hdisk1]
      exact h.settled.1.append h.settled.2 hentry hnew hpath1 hmemtable1
    apply wp_zoomLog
    apply wp_mono (wp_maybeFlush hinv1 haccounted1 hT)
    . intro _ m' _ h'
      exact ⟨h', rfl⟩
    . intro e m' _ _ he
      exact he
  . intro e m' _ _ _ _ _ _ _ _ _ he
    exact he

end Ready

namespace KeyValues

def toSpec (kvs : KeyValues) : Spec :=
  fun key => (kvs key).map (Entry.set key)

theorem toSpec_set (kvs : KeyValues) (key value : String) :
    toSpec (Function.update kvs key (some value)) = (toSpec kvs).write (.set key value) := by
  funext key'
  unfold toSpec Spec.write
  by_cases h : key' = key
  . subst h
    simp [Function.update, Entry.key, Log.visible, Entry.isSet, Entry.value]
  . simp [Function.update, Entry.key, h]

theorem toSpec_delete (kvs : KeyValues) (key : String) :
    toSpec (Function.update kvs key none) = (toSpec kvs).write (.delete key) := by
  funext key'
  unfold toSpec Spec.write
  by_cases h : key' = key
  . subst h
    simp [Function.update, Entry.key, Log.visible, Entry.isSet, Entry.value]
  . simp [Function.update, Entry.key, h]

end KeyValues

def Session.replied (session : Session) (reply : String) : Bytes :=
  session.out ++ bytesOf (reply ++ "\n")

section Silent

variable {d : Disk} {session : Session} {kvs : KeyValues}

theorem answers_writeln (d : Disk) (session : Session) (line : String) :
    Answers (Session.writeln line) d session () { session with out := session.replied line } := by
  intro T Q E m hd hs hok hfault
  apply wp_writeln
  . intro m' hm' hdisk' hself'
    rw [hs] at hself'
    exact hok m' ⟨hm', hdisk'⟩ hself'
  . intro m' hm' hdisk' _
    exact hfault m' ⟨hm', hdisk'⟩

theorem answers_zoomLog_maybeFlush
    (h : session.log.memtable.size ≤ flushThresholdMb * 2 ^ 20) :
    Answers (Session.zoomLog (Log.maybeFlush c)) d session () session := by
  have hflush : ¬session.log.memtable.shouldFlush = true := not_shouldFlush_iff.mpr h
  have hlog : Answers (Log.maybeFlush c) d session.log () session.log := by
    apply Answers.bind Answers.getSelf
    rw [if_neg hflush]
    exact Answers.pure ()
  exact Answers.zoom hlog

theorem answers_execute (h : Ready c kvs.toSpec d session.log) {command : Command}
    (hsilent : kvs.silent command = true) (hquit : command ≠ .quit) :
    Answers (Session.execute c command) d session ()
      { session with out := session.replied (kvs.execute command).1 } := by
  have hlookup : ∀ key, lookup session.log.memtable (layers c d) key = kvs.toSpec key :=
    fun key => h.inv.lookup_eq (Set.mem_univ key)
  have hget : ∀ key, Answers (Session.zoomLog (Log.get c key)) d session (kvs.toSpec key) session := by
    intro key
    rw [← hlookup key]
    exact answers_zoomLog_get d session key
  cases command with
  | set key value => contradiction
  | get key =>
    apply Answers.bind (hget key)
    unfold KeyValues.toSpec
    cases hvalue : kvs key with
    | some value =>
      rw [KeyValues.execute_get_of_some hvalue]
      exact answers_writeln d session _
    | none =>
      rw [KeyValues.execute_get_of_none hvalue]
      exact answers_writeln d session _
  | delete key =>
    have hnone : kvs key = none := Option.isNone_iff_eq_none.mp hsilent
    have hcontains := answers_zoomLog_contains (c := c) d session key
    rw [hlookup, KeyValues.toSpec, hnone] at hcontains
    rw [KeyValues.execute_delete_of_none hnone]
    refine Answers.bind hcontains (Answers.bind (answers_writeln d session _) ?_)
    exact answers_zoomLog_maybeFlush h.settled.2
  | quit => contradiction
  | help => exact answers_writeln d session _

end Silent

def Command.entry : Command → Option Entry
  | .set key value => some (.set key value)
  | .delete key => some (.delete key)
  | .get _ | .quit | .help => none

theorem wp_execute {m : Machine Call Disk Session} {kvs : KeyValues}
    (h : Ready c kvs.toSpec m.disk m.self.log) (hT : ∀ d, T d → Sound c d) {command : Command}
    (hquit : command ≠ .quit) (hentry : ∀ entry ∈ command.entry, Fits c entry) :
    wp T (Session.execute c command)
      (fun _ m' => Ready c (kvs.execute command).2.toSpec m'.disk m'.self.log
        ∧ m'.self.out = m.self.replied (kvs.execute command).1)
      (fun e _ => IoFailure e) m := by
  cases hsilent : kvs.silent command with
  | true =>
    apply answers_execute h hsilent hquit T _ _ m rfl rfl
    . intro m' hm' hself'
      rw [hm'.disk_eq, hself', KeyValues.execute_silent hsilent]
      exact ⟨h, rfl⟩
    . intro m' _
      exact Or.inl rfl
  | false =>
    cases command with
    | set key value =>
      apply wp_bind
      apply wp_writeln
      . intro m1 _ hdisk1 hself1
        have h1 : Ready c kvs.toSpec m1.disk m1.self.log := by
          rw [hdisk1, hself1]
          exact h
        apply wp_mono (h1.wp_record hT (hentry _ rfl))
        . rintro _ m' _ ⟨h', hout⟩
          rw [← KeyValues.toSpec_set] at h'
          exact ⟨h', by rw [hout, hself1]; rfl⟩
        . intro e m' _ _ he
          exact he
      . intro m' _ _ _
        exact Or.inl rfl
    | delete key =>
      rcases Option.isSome_iff_exists.mp (by simpa [KeyValues.silent] using hsilent) with
        ⟨value, hvalue⟩
      have hcontains := answers_zoomLog_contains (c := c) m.disk m.self key
      rw [h.inv.lookup_eq (Set.mem_univ key), KeyValues.toSpec, hvalue] at hcontains
      apply wp_bind
      apply hcontains T _ _ m rfl rfl
      . intro m1 hm1 hself1
        apply wp_bind
        apply wp_writeln
        . intro m2 _ hdisk2 hself2
          have h2 : Ready c kvs.toSpec m2.disk m2.self.log := by
            rw [hdisk2, hself2, hm1.disk_eq, hself1]
            exact h
          apply wp_mono (h2.wp_record hT (hentry _ rfl))
          . rintro _ m' _ ⟨h', hout⟩
            rw [← KeyValues.toSpec_delete] at h'
            rw [KeyValues.execute_delete_of_some hvalue]
            exact ⟨h', by rw [hout, hself2, hself1]; rfl⟩
          . intro e m' _ _ he
            exact he
        . intro m' _ _ _
          exact Or.inl rfl
      . intro m' _
        exact Or.inl rfl
    | get key => contradiction
    | quit => contradiction
    | help => contradiction

def transcript (replies : List String) : Bytes :=
  (replies.map fun reply => bytesOf (reply ++ "\n")).flatten

theorem transcript_append (replies : List String) (reply : String) :
    transcript (replies ++ [reply]) = transcript replies ++ bytesOf (reply ++ "\n") := by
  simp [transcript]

def Client.runner (client : Client) : Runner :=
  { reader := client.unsent, writer := transcript client.replies,
    flushed := transcript client.replies, running := client.running }

-- what a line asks to write can be written
def LineFits (c : Crates) (line : List Char) : Prop :=
  ∀ command, Command.tryFrom (trim (String.ofList line)) = .ok command →
    ∀ entry ∈ command.entry, Fits c entry

namespace Runner

theorem answers_readCall {σ α : Type} {call : Call} {act : Disk → σ → Except Error α × σ} {d : Disk}
    {s s' : σ} {a : α} (h : act d s = (.ok a, s')) : Answers (readCall call act) d s a s' := by
  intro T Q E m hd hs hok hfault
  apply wp_readCall
  . intro a' m' hm' hact
    rw [hd, hs, h] at hact
    cases hact
    exact hok m' hm' rfl
  . intro e m' _ hact
    rw [hd, hs, h] at hact
    cases hact
  . intro m' hm' _
    exact hfault m' hm'

theorem answers_readLine (d : Disk) (log : Log) (runner : Runner) :
    Answers readLine d ⟨log, runner⟩ (String.ofList (splitLine runner.reader).1)
      ⟨log, { runner with reader := (splitLine runner.reader).2 }⟩ :=
  answers_readCall rfl

theorem answers_flush (d : Disk) (log : Log) (runner : Runner) :
    Answers flush d ⟨log, runner⟩ () ⟨log, { runner with flushed := runner.writer }⟩ :=
  answers_readCall rfl

theorem answers_stop (d : Disk) (log : Log) (runner : Runner) :
    Answers stop d ⟨log, runner⟩ () ⟨log, { runner with running := false }⟩ :=
  Answers.bind Answers.getSelf (Answers.setSelf _)

/--
What a line does here and on the map.
-/
theorem handleLine_cases (c : Crates) (kvs : KeyValues) (line : String) :
    (kvs.answer line = none ∧ handleLine c line = stop)
      ∨ (∃ reply, kvs.answer line = some (reply, kvs)
        ∧ handleLine c line = respond (Session.writeln reply))
      ∨ ∃ command, Command.tryFrom (trim line) = .ok command ∧ command ≠ .quit
        ∧ kvs.answer line = some (kvs.execute command)
        ∧ handleLine c line = respond (Session.execute c command) := by
  unfold KeyValues.answer handleLine
  by_cases hempty : line = ""
  . rw [if_pos hempty, if_pos hempty]
    exact Or.inl ⟨rfl, rfl⟩
  . rw [if_neg hempty, if_neg hempty]
    cases Command.tryFrom (trim line) with
    | error e => exact Or.inr (Or.inl ⟨_, rfl, rfl⟩)
    | ok command =>
      cases command with
      | quit => exact Or.inl ⟨rfl, rfl⟩
      | set key value => exact Or.inr (Or.inr ⟨_, rfl, by simp, rfl, rfl⟩)
      | get key => exact Or.inr (Or.inr ⟨_, rfl, by simp, rfl, rfl⟩)
      | delete key => exact Or.inr (Or.inr ⟨_, rfl, by simp, rfl, rfl⟩)
      | help => exact Or.inr (Or.inr ⟨_, rfl, by simp, rfl, rfl⟩)

section Pass

variable {d : Disk} {log : Log} {kvs : KeyValues} {input unsent : List Char} {replies : List String}

def reading (unsent : List Char) (replies : List String) : Runner :=
  { reader := unsent, writer := transcript replies, flushed := transcript replies, running := true }

theorem answers_respond {reply : String} {x : Os Session Unit}
    (hx : Answers x d ⟨log, transcript replies⟩ () ⟨log, transcript (replies ++ [reply])⟩) :
    Answers (respond x) d ⟨log, reading unsent replies⟩ ()
      ⟨log, reading unsent (replies ++ [reply])⟩ :=
  Answers.bind (Answers.zoom hx) (answers_flush d log _)

theorem answers_pass_of_stop (hhandle : handleLine c (String.ofList (splitLine input).1) = stop) :
    Answers (pass c) d ⟨log, reading input replies⟩ ()
      ⟨log, Client.runner ⟨(splitLine input).2, replies, false⟩⟩ := by
  refine Answers.bind (answers_readLine d log (reading input replies)) ?_
  exact hhandle ▸ answers_stop d log _

theorem answers_pass_of_respond {reply : String} {x : Os Session Unit}
    (hhandle : handleLine c (String.ofList (splitLine input).1) = respond x)
    (hx : Answers x d ⟨log, transcript replies⟩ ()
      ⟨log, Session.replied ⟨log, transcript replies⟩ reply⟩) :
    Answers (pass c) d ⟨log, reading input replies⟩ ()
      ⟨log, reading (splitLine input).2 (replies ++ [reply])⟩ := by
  refine Answers.bind (answers_readLine d log (reading input replies)) ?_
  unfold Session.replied at hx
  rw [← transcript_append] at hx
  exact hhandle ▸ answers_respond hx

theorem answers_pass (h : Ready c kvs.toSpec d log)
    (hsilent : Client.silent ⟨input, replies, true⟩ kvs) :
    Answers (pass c) d ⟨log, reading input replies⟩ ()
      ⟨log, (Client.pass ⟨input, replies, true⟩ kvs).1.runner⟩ := by
  unfold Client.pass
  rcases handleLine_cases c kvs (String.ofList (splitLine input).1) with
    ⟨hanswer, hhandle⟩ | ⟨reply, hanswer, hhandle⟩ | ⟨command, hparse, hquit, hanswer, hhandle⟩
  . rw [hanswer]
    exact answers_pass_of_stop hhandle
  . rw [hanswer]
    exact answers_pass_of_respond hhandle (answers_writeln d _ reply)
  . rw [hanswer]
    exact answers_pass_of_respond hhandle (answers_execute h (hsilent command hparse) hquit)

theorem wp_pass {m : Machine Call Disk Serving} (h : Ready c kvs.toSpec m.disk m.self.log)
    (hrunner : m.self.runner = reading input replies) (hT : ∀ d, T d → Sound c d)
    (hline : LineFits c (splitLine input).1) :
    wp T (pass c) (fun _ m' =>
        Ready c (Client.pass ⟨input, replies, true⟩ kvs).2.toSpec m'.disk m'.self.log
          ∧ m'.self.runner = (Client.pass ⟨input, replies, true⟩ kvs).1.runner)
      (fun e _ => IoFailure e) m := by
  have hself : m.self = ⟨m.self.log, reading input replies⟩ := by rw [← hrunner]
  -- a line that is not a command says what it says without the log
  have hanswers : ∀ {runner}, Answers (pass c) m.disk ⟨m.self.log, reading input replies⟩ ()
      ⟨m.self.log, runner⟩ → wp T (pass c) (fun _ m' =>
        Ready c kvs.toSpec m'.disk m'.self.log ∧ m'.self.runner = runner)
      (fun e _ => IoFailure e) m := by
    intro runner hpass
    apply hpass T _ _ m rfl hself
    . intro m' hm' hself'
      rw [hm'.disk_eq, hself']
      exact ⟨h, rfl⟩
    . intro m' _
      exact Or.inl rfl
  unfold Client.pass
  rcases handleLine_cases c kvs (String.ofList (splitLine input).1) with
    ⟨hanswer, hhandle⟩ | ⟨reply, hanswer, hhandle⟩ | ⟨command, hparse, hquit, hanswer, hhandle⟩
  . rw [hanswer]
    exact hanswers (answers_pass_of_stop hhandle)
  . rw [hanswer]
    exact hanswers (answers_pass_of_respond hhandle (answers_writeln m.disk _ reply))
  . rw [hanswer]
    unfold pass
    apply wp_bind
    apply answers_readLine m.disk m.self.log (reading input replies) T _ _ m rfl hself
    . intro m1 hm1 hself1
      have h1 : Ready c kvs.toSpec m1.disk m1.self.log := by
        rw [hm1.disk_eq, hself1]
        exact h
      change wp T (handleLine c (String.ofList (splitLine input).1)) _ _ m1
      rw [hhandle]
      apply wp_bind
      apply wp_zoom
      apply wp_mono (wp_execute (m := m1.withSelf ⟨m1.self.log, m1.self.runner.writer⟩) h1 hT hquit
        (hline command hparse))
      . rintro _ m2 _ ⟨h2, hout⟩
        apply answers_flush m2.disk m2.self.log
          { reading (splitLine input).2 replies with writer := m2.self.out } T _ _ _ rfl
        . change Serving.mk _ _ = _
          rw [hself1]
          rfl
        . intro m' hm' hself'
          rw [hm'.disk_eq, hself']
          refine ⟨h2, ?_⟩
          have hout : m2.self.out = transcript (replies ++ [(kvs.execute command).1]) := by
            rw [hout, transcript_append]
            change m1.self.runner.writer ++ _ = _
            rw [hself1]
            rfl
          dsimp only
          rw [hout]
          rfl
        . intro m' _
          exact Or.inl rfl
      . intro e m' _ _ he
        exact he
    . intro m' _
      exact Or.inl rfl

end Pass

end Runner

-- what `read_line` returns, one line after the other
def lines : List Char → List (List Char)
  | [] => []
  | ch :: input =>
    if ch = '\n' then
      [ch] :: lines input
    else
      match lines input with
      | [] => [[ch]]
      | line :: rest => (ch :: line) :: rest

theorem lines_eq_cons {input : List Char} (h : input ≠ []) :
    lines input = (splitLine input).1 :: lines (splitLine input).2 := by
  induction input with
  | nil => contradiction
  | cons ch input ih =>
    rw [lines, splitLine]
    by_cases hch : ch = '\n'
    . rw [if_pos hch, if_pos hch]
    . rw [if_neg hch, if_neg hch]
      cases input with
      | nil => rfl
      | cons ch' input => rw [ih (by simp)]

theorem lineFits_nil : LineFits c [] := by
  intro command hparse
  have hempty : Command.tryFrom (trim (String.ofList [])) = .error .missingRequiredArguments := by
    decide
  rw [hempty] at hparse
  contradiction

theorem lineFits_splitLine {input : List Char} (h : ∀ line ∈ lines input, LineFits c line) :
    LineFits c (splitLine input).1 ∧ ∀ line ∈ lines (splitLine input).2, LineFits c line := by
  cases input with
  | nil => exact ⟨lineFits_nil, h⟩
  | cons ch input =>
    rw [lines_eq_cons (by simp)] at h
    exact ⟨h _ List.mem_cons_self, fun line hline => h line (List.mem_cons_of_mem _ hline)⟩

variable {ι : Type} [DecidableEq ι]

structure Serves (c : Crates) (clients : Clients ι) (m : Machine Call Disk (Server ι)) : Prop where
  faultless : m.Faultless
  ready : Ready c clients.kvs.toSpec m.disk m.self.log
  runners : ∀ i, m.self.runners i = (clients.clients i).runner
  lines : ∀ i, ∀ line ∈ lines (clients.clients i).unsent, LineFits c line

namespace Serves

variable {clients : Clients ι} {m : Machine Call Disk (Server ι)} {i : ι}

omit [DecidableEq ι] in
theorem runner_eq (h : Serves c clients m) (hrunning : (clients.clients i).running = true) :
    m.self.runners i = Runner.reading (clients.clients i).unsent (clients.clients i).replies := by
  rw [h.runners i, Client.runner, hrunning]
  rfl

/--
Run lemma of `Runner.wp_pass`.
-/
theorem wp_turn (h : Serves c clients m) (hT : ∀ d, T d → Sound c d) (i : ι) :
    wp T (Server.turn c i) (fun _ m' => Serves c (clients.turn i) m') (fun e _ => IoFailure e) m := by
  unfold Server.turn Clients.turn
  apply wp_bind
  apply wp_getSelf
  cases hrunning : (clients.clients i).running with
  | false =>
    rw [h.runners i, Client.runner, hrunning]
    apply wp_pure
    exact h
  | true =>
    have hrunner := h.runner_eq hrunning
    rw [hrunner]
    rcases lineFits_splitLine (h.lines i) with ⟨hline, hlines⟩
    generalize hclient : clients.clients i = client at *
    rcases client with ⟨input, replies, running⟩
    dsimp only at hrunning
    subst hrunning
    have hreading : (Runner.reading input replies).running = true := rfl
    rw [if_pos hreading, if_pos rfl]
    apply wp_zoom
    apply wp_mono (Runner.wp_pass h.ready hrunner hT hline)
    . rintro _ m' hm' ⟨hready, hrunner'⟩
      refine ⟨(hm'.of_withSelf.withSelf _).faultless.mpr h.faultless, hready, ?_, ?_⟩
      . intro j
        dsimp only [Machine.withSelf_self]
        by_cases hj : j = i
        . rw [hj, Function.update_self, Function.update_self]
          exact hrunner'
        . rw [Function.update_of_ne hj, Function.update_of_ne hj]
          exact h.runners j
      . intro j
        dsimp only
        by_cases hj : j = i
        . rw [hj, Function.update_self, Client.pass_unsent]
          exact hlines
        . rw [Function.update_of_ne hj]
          exact h.lines j
    . intro e m' _ _ he
      exact he

omit [DecidableEq ι] in
theorem wp_restart (h : Serves c clients m) :
    wp T (Server.restart c) (fun _ m' => Serves c clients m') (fun e _ => IoFailure e) m := by
  have hinv := Inv.run_reopen (m := m.withSelf m.self.log) h.ready.inv h.faultless
  have hsettled := Settled.run_reopen (m := m.withSelf m.self.log) h.ready.settled h.faultless
  rcases hinv with ⟨m', hrun, hm', hinv⟩
  rcases hsettled with ⟨m'', hrun', -, hsettled⟩
  rw [hrun] at hrun'
  cases hrun'
  unfold Server.restart
  apply wp_zoom
  apply wp_of_run hrun
  exact ⟨hm'.later.faultless.mpr h.faultless, ⟨hinv, hsettled⟩, h.runners, h.lines⟩

end Serves

end Chickadee
