import Chickadee.Lib.Platter
import Chickadee.Impl.Run

/-!
This module contains the loss of power: of a file only those bytes are safe that `sync_all` has been
called for. A file of the directory remains there once it has been created, and is gone once it has
been removed. What a process finds on the disk when it is started is safe.
-/

namespace Chickadee

open Faulty Faulty.Io Platter

def Path.area (path : Path) : Area Call Disk UInt8 where
  get? d := (d.get? path).map Contents.bytes
  sync := .syncAll path

/--
`d'` is what a loss of power may leave of `d`, where the calls so far are `history` and have failed as
`faults` says.
-/
structure Outage (faults : Nat → Option Nat) (history : List (Step Call Disk)) (d d' : Disk) :
    Prop where
  keys_eq : d'.sstables.keys = d.sstables.keys
  remains : ∀ path contents, d'.get? path = some contents →
    path.area.Remains faults d history contents.bytes
  clock_eq : d'.clock = d.clock
  ticks_eq : d'.ticks = d.ticks

def Store.started (d : Disk) : Store :=
  Machine.boot d .closed

/--
The power is lost when `op` has ended or where one of its calls fails. The next process opens the log on
what is left of the disk.
-/
structure Blackout where
  op : Op
  faults : Nat → Option Nat
  left : Disk

namespace Blackout

variable (c : Crates)

def result (b : Blackout) (m : Store) : Result Call Disk Error Log Unit :=
  (b.op.exec c).run (m.withFaults b.faults)

def after (b : Blackout) : Store :=
  ((Log.reopen c).run (Store.started b.left)).machine

def incident (b : Blackout) (m : Store) : Incident :=
  ⟨b.op, (b.result c m).value?.isSome, true⟩

end Blackout

end Chickadee
