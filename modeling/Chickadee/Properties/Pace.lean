import Chickadee.Properties.Cadence
import Chickadee.Properties.Naming

/-!
This module contains what is left of the rule for compactions where the log is opened again at any time:
from the first reopening on, the counter is the number of files, and both grow with every flush until
the next compaction.
-/

namespace Chickadee

open Faulty Faulty.Io

variable {c : Crates}

def tables (d : Disk) : Finset String :=
  d.sstables.keys.toFinset

theorem tables_write (d : Disk) (name : String) (contents : Contents) :
    tables (d.write (.sstable name) contents) = insert name (tables d) := by
  ext x
  unfold tables
  rw [Finset.mem_insert, List.mem_toFinset, List.mem_toFinset]
  exact SortedMap.mem_keys_insert ..

theorem writeStable_tables (K : Finset String) {path : Path}
    (hpath : ∀ name, path = .sstable name → name ∈ K) :
    WriteStable (fun d _ => tables d = K) path := by
  refine ⟨fun _ _ _ _ h => h, ?_⟩
  intro d history call contents _ h
  cases path with
  | wal => exact h
  | sstable name => rw [tables_write, h, Finset.insert_eq_self.mpr (hpath name rfl)]

theorem writeStable_wal (K : Finset String) : WriteStable (fun d _ => tables d = K) .wal :=
  writeStable_tables K (by simp)

-- the counter is not at its end, and the name of the next file is a new one
def fresh (_ : List Bool) (m : Store) : Op → Bool
  | .flush => m.self.flushCount < u64Max && (m.disk.sstables.get? (nextName m.disk)).isNone
  | _ => true

end Chickadee
