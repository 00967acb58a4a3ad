import Chickadee.Impl.Concrete
import Chickadee.Lemmas.Server

/-!
This module contains that the clients of a server see one map: whatever the order of their lines, every
client receives what the map answers.
-/

namespace Chickadee

open Faulty Faulty.Io

variable {c : Crates} {ι : Type} [DecidableEq ι]

omit [DecidableEq ι] in
theorem serves_waiting {clock : Nat → Nat} {inputs : ι → List Char}
    (hlines : ∀ i, ∀ line ∈ lines (inputs i), LineFits c line) :
    Serves c (Clients.start inputs) (Server.waiting clock inputs) :=
  ⟨Machine.boot_faultless _ _, ⟨inv_fresh clock, Accounted.empty rfl rfl rfl⟩, fun _ => rfl, hlines⟩

theorem Serves.wp_handle {T : Disk → Prop} {clients : Clients ι} {m : Machine Call Disk (Server ι)}
    (h : Serves c clients m) (hT : ∀ d, T d → Sound c d) (event : Event ι) :
    wp T (Server.handle c event) (fun _ m' => Serves c (clients.handle event) m')
      (fun e _ => IoFailure e) m := by
  cases event with
  | line i => exact h.wp_turn hT i
  | restart => exact h.wp_restart

theorem Serves.run_turn_of_silent {clients : Clients ι} {m : Machine Call Disk (Server ι)}
    (h : Serves c clients m) {i : ι} (hsilent : (clients.clients i).silent clients.kvs) :
    ∃ m', (Server.turn c i).run m = .ok () m' ∧ m'.disk = m.disk ∧ m'.self.log = m.self.log := by
  have hwp : wp (fun _ => True) (Server.turn c i)
      (fun _ m' => m'.disk = m.disk ∧ m'.self.log = m.self.log) (fun e _ => e = .fault) m := by
    unfold Server.turn
    apply wp_bind
    apply wp_getSelf
    cases hrunning : (clients.clients i).running with
    | false =>
      rw [h.runners i, Client.runner, hrunning]
      apply wp_pure
      exact ⟨rfl, rfl⟩
    | true =>
      have hrunner := h.runner_eq hrunning
      rw [hrunner]
      generalize hclient : clients.clients i = client at *
      rcases client with ⟨input, replies, running⟩
      dsimp only at hrunning
      subst hrunning
      have hreading : (Runner.reading input replies).running = true := rfl
      rw [if_pos hreading]
      apply wp_zoom
      apply Runner.answers_pass h.ready hsilent _ _ _ _ rfl
      . exact congrArg (Runner.Serving.mk m.self.log) hrunner
      . intro m' hm' hself'
        exact ⟨hm'.disk_eq, congrArg Runner.Serving.log hself'⟩
      . intro m' _
        rfl
  rcases hwp.exists_ok h.faultless ⟨trivial, fun _ _ => trivial⟩ (by simp) with ⟨_, m', hrun, h'⟩
  exact ⟨m', hrun, h'⟩

/--
Every run of the server is a run of the map: each client has received its answers, and is served or not
as it is there. No line that writes nothing touches the store.
-/
theorem serve_eq_run {clock : Nat → Nat} {inputs : ι → List Char} {events : List (Event ι)}
    (hlines : ∀ i, ∀ line ∈ lines (inputs i), LineFits c line)
    (hT : ((Server.serve c (.restart :: events)).run (Server.waiting clock inputs)).machine.Always
      (Sound c))
    (hspace : ∀ m, (Server.serve c (.restart :: events)).run (Server.waiting clock inputs)
      ≠ .error (.raised .fileTooLarge) m) :
    ∃ m, (Server.serve c (.restart :: events)).run (Server.waiting clock inputs) = .ok () m
      ∧ (∀ i, m.self.runners i = (((Clients.start inputs).run events).clients i).runner)
      ∧ (∀ key, Store.get c (m.withSelf m.self.log) key
        = some ((((Clients.start inputs).run events).kvs key).map (Entry.set key)))
      ∧ ∀ i, (((Clients.start inputs).run events).clients i).silent
          ((Clients.start inputs).run events).kvs →
        ∃ m', (Server.turn c i).run m = .ok () m' ∧ m'.disk = m.disk
          ∧ m'.self.log = m.self.log := by
  have hwaiting : Serves c (Clients.start inputs) (Server.waiting clock inputs) :=
    serves_waiting hlines
  have hwp := wp_forM (f := Server.handle c) (R := Serves c)
    (fun clients event m (h : Serves c clients m) => h.wp_handle (fun _ hd => hd) event)
    (.restart :: events) hwaiting
  have hfails : ∀ err m', (Server.serve c (.restart :: events)).run (Server.waiting clock inputs)
      = .error (.raised err) m' → ¬IoFailure (.raised err) := by
    rintro err m' hrun (he | he)
    . contradiction
    . rw [he] at hrun
      exact hspace m' hrun
  rcases hwp.exists_ok (Machine.boot_faultless _ _) hT hfails with ⟨_, m, hrun, hserves⟩
  refine ⟨m, hrun, hserves.runners, ?_, ?_⟩
  . intro key
    exact Inv.get_eq (m := m.withSelf m.self.log) hserves.ready.inv (Set.mem_univ key)
  . intro i hsilent
    exact hserves.run_turn_of_silent hsilent

def lineFitsCheck (c : Crates) (line : List Char) : Bool :=
  match Command.tryFrom (trim (String.ofList line)) with
  | .ok command => command.entry.all fun entry =>
    writableCheck c.toCodec entry && (bytesOf entry.key).length ≤ isizeMax
  | .error _ => true

theorem LineFits.of_check {line : List Char} (h : lineFitsCheck c line = true) : LineFits c line := by
  intro command hparse entry hentry
  unfold lineFitsCheck at h
  rw [hparse] at h
  dsimp only at h
  rw [Option.mem_def.mp hentry] at h
  simp only [Option.all_some, Bool.and_eq_true, decide_eq_true_eq] at h
  exact ⟨Writable.of_check _ h.1, h.2⟩

def sampleInputs : Bool → List Char
  | false => "set a b\nget a\n".toList
  | true => "del a\nset x\nquit\n".toList

def sampleEvents : List (Event Bool) :=
  [.line false, .line true, .line false, .restart, .line true, .line false, .line true]

theorem serve_eq_run_sampleEvents :
    ∃ m, (Server.serve Concrete.crates (.restart :: sampleEvents)).run
        (Server.waiting Nat.succ sampleInputs) = .ok () m
      ∧ (m.self.runners false).flushed = transcript ["a => b", "a not found"]
      ∧ (m.self.runners true).flushed = transcript ["a deleted", "Error: missing required arguments"] := by
  have hcheck : ∀ i, ((lines (sampleInputs i)).all (lineFitsCheck Concrete.crates)) = true := by
    decide +kernel
  have hlines : ∀ i, ∀ line ∈ lines (sampleInputs i), LineFits Concrete.crates line := by
    intro i line hline
    exact LineFits.of_check (List.all_eq_true.mp (hcheck i) line hline)
  have hT : ((Server.serve Concrete.crates (.restart :: sampleEvents)).run
      (Server.waiting Nat.succ sampleInputs)).machine.Always (Sound Concrete.crates) := by
    apply Machine.Always.mono (T := Strict Concrete.crates) _ fun _ => Strict.sound
    exact always_strict_of_check (by decide +kernel)
  have hspace : ∀ m, (Server.serve Concrete.crates (.restart :: sampleEvents)).run
      (Server.waiting Nat.succ sampleInputs) ≠ .error (.raised .fileTooLarge) m := by
    intro m hm
    have hvalue : ((Server.serve Concrete.crates (.restart :: sampleEvents)).run
      (Server.waiting Nat.succ sampleInputs)).value? = some () := by decide +kernel
    rw [hm] at hvalue
    clear hm
    contradiction
  rcases serve_eq_run hlines hT hspace with ⟨m, hrun, hrunners, -⟩
  refine ⟨m, hrun, ?_, ?_⟩
  . rw [hrunners]
    decide +kernel
  . rw [hrunners]
    decide +kernel

end Chickadee
