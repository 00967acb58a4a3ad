import Chickadee.Impl.Command
import Chickadee.Lemmas.Account

/-!
This module contains what the commands do to the log behind a session.
-/

namespace Chickadee

open Faulty Faulty.Io Layers MemTable

variable {α : Type} {T : Disk → Prop} {c : Crates} {m : Machine Call Disk Session}

theorem wp_writeln (line : String) {Q : Unit → Machine Call Disk Session → Prop}
    {E : Failure Error → Machine Call Disk Session → Prop}
    (hok : ∀ m', Extends m m' → m'.disk = m.disk →
      m'.self = ⟨m.self.log, m.self.out ++ bytesOf (line ++ "\n")⟩ → Q () m')
    (hfail : ∀ m', Extends m m' → m'.disk = m.disk → m'.self.log = m.self.log → E .fault m') :
    wp T (Session.writeln line) Q E m := by
  unfold Session.writeln
  dsimp only
  apply wp_syscall
  . intro a d s hact
    simp only [Prod.mk.injEq] at hact
    rcases hact with ⟨-, rfl, rfl⟩
    exact hok _ (Extends.record ..) rfl rfl
  . simp
  . intro n _
    exact hfail _ (Extends.record ..) rfl rfl

theorem wp_writeln_of_log {P : Disk → Log → Prop} {line : String}
    {Q : Unit → Machine Call Disk Session → Prop}
    {E : Failure Error → Machine Call Disk Session → Prop} (h : P m.disk m.self.log)
    (hok : ∀ m', P m'.disk m'.self.log → Q () m')
    (hfail : ∀ m', P m'.disk m'.self.log → E .fault m') : wp T (Session.writeln line) Q E m := by
  apply wp_writeln
  . intro m' _ hdisk' hself'
    apply hok
    rw [hdisk', hself']
    exact h
  . intro m' _ hdisk' hlog'
    apply hfail
    rw [hdisk', hlog']
    exact h

theorem wp_zoomLog {x : Os Log α} {Q : α → Machine Call Disk Session → Prop}
    {E : Failure Error → Machine Call Disk Session → Prop}
    (h : wp T x (fun a m' => Q a (m'.withSelf ⟨m'.self, m.self.out⟩))
      (fun e m' => E e (m'.withSelf ⟨m'.self, m.self.out⟩)) (m.withSelf m.self.log)) :
    wp T (Session.zoomLog x) Q E m :=
  wp_zoom h

theorem answers_zoomLog_get (d : Disk) (session : Session) (key : String) :
    Answers (Session.zoomLog (Log.get c key)) d session
      (lookup session.log.memtable (layers c d) key) session :=
  Answers.zoom (answers_get d session.log key)

theorem answers_zoomLog_contains (d : Disk) (session : Session) (key : String) :
    Answers (Session.zoomLog (Log.contains c key)) d session
      (lookup session.log.memtable (layers c d) key).isSome session :=
  Answers.zoom (Answers.bind (answers_get d session.log key) (Answers.pure _))

theorem selfless_getFromTables {σ : Type} (key : String) (names : List String) :
    (Log.getFromTables c key names : Os σ _).Selfless := by
  induction names with
  | nil => exact Selfless.pure _
  | cons name names ih =>
    unfold Log.getFromTables
    apply Selfless.bind (selfless_fromPath _)
    intro sstable
    cases sstable with
    | none => exact ih
    | some sstable =>
      dsimp only
      split
      . apply Selfless.bind (Selfless.on _ _)
        rintro ⟨entry, _⟩
        cases entry with
        | none => exact ih
        | some _ => exact Selfless.pure _
      . exact ih

theorem selfless_get (key : String) : (Log.get c key).Selfless := by
  unfold Log.get
  apply Selfless.bind Selfless.getSelf
  intro self
  cases self.memtable.get key with
  | some _ => exact Selfless.pure _
  | none => exact Selfless.bind selfless_readDir fun _ => selfless_getFromTables _ _

theorem selfless_zoomLog {x : Os Log α} (hx : x.Selfless) : (Session.zoomLog x).Selfless :=
  Selfless.zoom (fun _ => rfl) hx

theorem wp_zoomLog_get (key : String) {Q : Option Entry → Machine Call Disk Session → Prop}
    {E : Failure Error → Machine Call Disk Session → Prop}
    (hok : ∀ m', Reads m m' → m'.self = m.self →
      Q (lookup m.self.log.memtable (layers c m.disk) key) m')
    (hfail : ∀ m', Reads m m' → m'.self = m.self → E .fault m') :
    wp T (Session.zoomLog (Log.get c key)) Q E m := by
  apply wp_selfless (selfless_zoomLog (selfless_get key))
  apply answers_zoomLog_get m.disk m.self key T _ _ m rfl rfl
  . intro m' hm' _ hself'
    exact hok m' hm' hself'
  . intro m' hm' hself'
    exact hfail m' hm' hself'

theorem wp_zoomLog_contains (key : String) {Q : Bool → Machine Call Disk Session → Prop}
    {E : Failure Error → Machine Call Disk Session → Prop}
    (hok : ∀ m', Reads m m' → m'.self = m.self →
      Q (lookup m.self.log.memtable (layers c m.disk) key).isSome m')
    (hfail : ∀ m', Reads m m' → m'.self = m.self → E .fault m') :
    wp T (Session.zoomLog (Log.contains c key)) Q E m := by
  have hselfless : (Log.contains c key).Selfless :=
    Selfless.bind (selfless_get key) fun _ => Selfless.pure _
  apply wp_selfless (selfless_zoomLog hselfless)
  apply answers_zoomLog_contains m.disk m.self key T _ _ m rfl rfl
  . intro m' hm' _ hself'
    exact hok m' hm' hself'
  . intro m' hm' hself'
    exact hfail m' hm' hself'

theorem Accounted.wp_zoomLog_maybeFlush (hc : PayloadsFit c)
    (h : Accounted c m.disk m.self.log) :
    wp T (Session.zoomLog (Log.maybeFlush c)) (fun _ m' => Settled c m'.disk m'.self.log)
      (fun e m' => Left c e (m'.withSelf m'.self.log)) m := by
  apply wp_zoomLog
  apply Settled.wp_maybeFlush hc h
  . intro m' h'
    exact h'
  . intro e m' hleft
    exact hleft

theorem Settled.wp_zoomLog_write (hc : PayloadsFit c) (h : Settled c m.disk m.self.log)
    {entry : Entry} (hentry : (bytesOf entry.key).length ≤ isizeMax) :
    wp T (do
      Session.zoomLog (Log.write c entry)
      Session.zoomLog (Log.maybeFlush c)) (fun _ m' => Settled c m'.disk m'.self.log)
      (fun e m' => Left c e (m'.withSelf m'.self.log)) m := by
  apply wp_bind
  apply wp_zoomLog
  apply Settled.wp_write hc h hentry
  . intro m' h'
    exact Accounted.wp_zoomLog_maybeFlush hc h'
  . intro e m' hleft
    exact hleft

theorem Settled.wp_execute (hc : PayloadsFit c) (h : Settled c m.disk m.self.log)
    {command : Command} (hkey : ∀ key ∈ command.key, (bytesOf key).length ≤ isizeMax) :
    wp T (Session.execute c command) (fun _ m' => Settled c m'.disk m'.self.log)
      (fun e m' => Left c e (m'.withSelf m'.self.log)) m := by
  have hfault : ∀ m' : Machine Call Disk Session, Left c .fault (m'.withSelf m'.self.log) :=
    fun m' => Or.inl (Or.inl rfl)
  cases command with
  | set key value =>
    apply wp_bind
    apply wp_writeln_of_log h
    . intro m1 h1
      exact Settled.wp_zoomLog_write hc h1 (hkey key rfl)
    . intro m' _
      exact hfault m'
  | get key =>
    apply wp_bind
    apply answers_zoomLog_get m.disk m.self key T _ _ m rfl rfl
    . intro m1 hm1 hself1
      have h1 : Settled c m1.disk m1.self.log := by
        rw [hm1.disk_eq, hself1]
        exact h
      split <;>
      . exact wp_writeln_of_log h1 (fun _ h' => h') fun m' _ => hfault m'
    . intro m' _
      exact hfault m'
  | delete key =>
    apply wp_bind
    apply answers_zoomLog_contains m.disk m.self key T _ _ m rfl rfl
    . intro m1 hm1 hself1
      have h1 : Settled c m1.disk m1.self.log := by
        rw [hm1.disk_eq, hself1]
        exact h
      dsimp only
      split
      . apply wp_bind
        apply wp_writeln_of_log h1
        . intro m2 h2
          exact Settled.wp_zoomLog_write hc h2 (hkey key rfl)
        . intro m' _
          exact hfault m'
      . apply wp_bind
        apply wp_writeln_of_log h1
        . intro m2 h2
          exact Accounted.wp_zoomLog_maybeFlush hc h2.1
        . intro m' _
          exact hfault m'
    . intro m' _
      exact hfault m'
  | quit =>
    apply wp_raise
    exact Or.inr ⟨by simp [NoOverflow], h⟩
  | help => exact wp_writeln_of_log h (fun _ h' => h') fun m' _ => hfault m'

end Chickadee
