import Chickadee.Impl.Outage
import Chickadee.Lemmas.Keeps
import Chickadee.Lemmas.Recovery

/-!
This module contains what each operation has synced when it ends, and what can be lost where it
fails: of the WAL the record that is being appended, of the directory the end of the table that is
being written.
-/

namespace Chickadee

open Faulty Faulty.Io Layers Platter

variable {σ α β : Type} {c : Crates} {T : Disk → Prop} {f : Nat → Option Nat}

theorem area_write (path path' : Path) (d : Disk) (contents : Contents) :
    path.area.get? (d.write path' contents)
      = if path = path' then some contents.bytes else path.area.get? d := by
  change ((d.write path' contents).get? path).map Contents.bytes = _
  rw [Disk.get?_write]
  split <;> rfl

theorem area_sstable (name : String) (d : Disk) :
    (Path.sstable name).area.get? d = (d.sstables.get? name).map Contents.bytes := rfl

theorem area_wal (d : Disk) : Path.wal.area.get? d = some d.wal.bytes := rfl

theorem area_of_get? {path : Path} {d : Disk} {contents : Contents}
    (h : d.get? path = some contents) : path.area.get? d = some contents.bytes :=
  congrArg (Option.map Contents.bytes) h

theorem wp_writeAll_step {m : Machine Call Disk File} (data : Bytes) {old : Contents}
    (hold : m.disk.read m.self.path = old) (hpos : m.self.pos = old.length) :
    wp T (writeAll data)
      (fun _ m' => ∃ new, new.bytes = old.bytes ++ data ∧ m'.disk = m.disk.write m.self.path new
        ∧ m'.self = ⟨m.self.path, new.length⟩
        ∧ m'.history = ⟨.writeAll m.self.path data, m.disk⟩ :: m.history)
      (fun _ m' => ∃ new b, new.bytes = old.bytes ++ b ∧ b <+: data
        ∧ m'.disk = m.disk.write m.self.path new
        ∧ m'.history = ⟨.writeAll m.self.path data, m.disk⟩ :: m.history) m := by
  have hcall : wp T (writeAll data)
      (fun _ m' => m'.history = ⟨.writeAll m.self.path data, m.disk⟩ :: m.history)
      (fun _ m' => m'.history = ⟨.writeAll m.self.path data, m.disk⟩ :: m.history) m := by
    apply wp_bind
    apply wp_getSelf
    apply wp_syscall
    . intros
      rfl
    . intros
      rfl
    . intros
      rfl
  have hwrite : wp T (writeAll data)
      (fun _ m' => ∃ new, new.bytes = old.bytes ++ data ∧ m'.disk = m.disk.write m.self.path new
        ∧ m'.self = ⟨m.self.path, new.length⟩)
      (fun _ m' => ∃ new b, new.bytes = old.bytes ++ b ∧ b <+: data
        ∧ m'.disk = m.disk.write m.self.path new) m := by
    apply wp_writeAll hold hpos
    . intro m' new _ hnew hdisk hself
      exact ⟨new, hnew, hdisk, hself⟩
    . intro e m' new b _ hnew hb _ hdisk _ _
      exact ⟨new, b, hnew, hb, hdisk⟩
  apply wp_mono (wp_and hwrite hcall)
  . rintro _ m' _ ⟨⟨new, hnew, hdisk, hself⟩, hhistory⟩
    exact ⟨new, hnew, hdisk, hself, hhistory⟩
  . rintro e m' _ _ ⟨⟨new, b, hnew, hb, hdisk⟩, hhistory⟩
    exact ⟨new, b, hnew, hb, hdisk, hhistory⟩

/--
The file at `path` is open at its end, and nothing but its end can be lost.
-/
structure Appending (path : Path) (f : Nat → Option Nat) (m : Machine Call Disk File) : Prop where
  faults_eq : m.faults = f
  path_eq : m.self.path = path
  pos_eq : ∃ now, m.disk.get? path = some now ∧ m.self.pos = now.length
  growing : path.area.Growing f m.disk m.history

def Appends (x : FileIo α) : Prop :=
  ∀ (T : Disk → Prop) (path : Path) (f : Nat → Option Nat) (m : Machine Call Disk File),
    Appending path f m → wp T x (fun _ m' => Appending path f m')
      (fun _ m' => path.area.Growing f m'.disk m'.history) m

namespace Appends

theorem pure (a : α) : Appends (Pure.pure a : FileIo α) := by
  intro T path f m h
  exact wp_pure h

theorem raise (err : Error) : Appends (Io.raise err : FileIo α) := by
  intro T path f m h
  exact wp_raise h.growing

theorem ofExcept (r : Except Error α) : Appends (Chickadee.ofExcept r : FileIo α) := by
  cases r with
  | error e => exact raise e
  | ok a => exact pure a

theorem context (o : Option α) (msg : String) : Appends (Chickadee.context o msg : FileIo α) := by
  cases o with
  | none => exact raise _
  | some a => exact pure a

theorem bind {x : FileIo α} {g : α → FileIo β} (hx : Appends x) (hg : ∀ a, Appends (g a)) :
    Appends (x >>= g) := by
  intro T path f m h
  apply wp_bind
  apply wp_mono (hx T path f m h)
  . intro a m' _ h'
    exact hg a T path f m' h'
  . intro e m' _ _ h'
    exact h'

theorem seekEnd : Appends (seek (.fromEnd 0)) := by
  intro T path f m h
  rcases h.pos_eq with ⟨now, hnow, hpos⟩
  have hread : m.disk.read path = now := by
    rw [Disk.read, hnow]
    rfl
  apply wp_bind
  apply wp_getSelf
  apply wp_syscall
  . intro a d s hact
    dsimp only at hact
    rw [if_pos (Nat.zero_le _)] at hact
    simp only [Prod.mk.injEq] at hact
    rcases hact with ⟨-, rfl, rfl⟩
    refine ⟨h.faults_eq, h.path_eq, ⟨now, hnow, ?_⟩, h.growing.step rfl⟩
    change (m.disk.read m.self.path).length - 0 = now.length
    rw [h.path_eq, hread]
    rfl
  . simp
  . intro n _
    exact h.growing.step rfl

theorem writeAll (data : Bytes) : Appends (Chickadee.writeAll data) := by
  intro T path f m h
  rcases h.pos_eq with ⟨now, hnow, hpos⟩
  have hread : m.disk.read m.self.path = now := by
    rw [h.path_eq, Disk.read, hnow]
    rfl
  have hgrown : ∀ {m' : Machine Call Disk File} {new : Contents} {b : Bytes},
      m'.history = ⟨.writeAll m.self.path data, m.disk⟩ :: m.history →
      new.bytes = now.bytes ++ b → m'.disk = m.disk.write m.self.path new →
      path.area.Growing f m'.disk m'.history := by
    intro m' new b hhistory hnew hdisk
    rw [hhistory, hdisk, h.path_eq]
    apply h.growing.append (area_of_get? hnow)
    . rw [area_write, if_pos rfl]
    . rw [hnew]
      exact List.prefix_append _ _
  apply wp_mono (wp_writeAll_step data hread hpos)
  . rintro _ m' hm' ⟨new, hnew, hdisk, hself, hhistory⟩
    refine ⟨hm'.faults_eq.trans h.faults_eq, ?_, ⟨new, ?_, ?_⟩, hgrown hhistory hnew hdisk⟩
    . rw [hself, h.path_eq]
    . rw [hdisk, h.path_eq, Disk.get?_write, if_pos rfl]
    . rw [hself]
  . rintro e m' _ _ ⟨new, b, hnew, -, hdisk, hhistory⟩
    exact hgrown hhistory hnew hdisk

theorem headerWrite {V : Type} (c : Codec V) (value : V) : Appends (Chickadee.headerWrite c value) :=
  bind seekEnd fun _ => bind (ofExcept _) fun _ => writeAll _

theorem writeEntries (entries : List Entry) (filter : BloomFilter) :
    Appends (MemTable.writeEntries c entries filter) := by
  induction entries generalizing filter with
  | nil => exact pure _
  | cons entry entries ih =>
    unfold MemTable.writeEntries
    rw [List.foldlM_cons]
    exact bind (bind (headerWrite _ _) fun _ => pure _) ih

end Appends

theorem wp_syncAll_firm {path : Path} {m : Machine Call Disk File} (h : Appending path f m) :
    wp T syncAll (fun _ m' => path.area.Firm f m'.disk m'.history)
      (fun _ m' => path.area.Growing f m'.disk m'.history) m := by
  apply wp_bind
  apply wp_getSelf
  intro _
  cases hfault : m.faults m.history.length with
  | some n =>
    rw [run_readCall_of_fault hfault]
    exact h.growing.step rfl
  | none =>
    rw [run_readCall_of_ok hfault rfl]
    apply Area.Firm.of_syncs _ rfl
    rw [← h.faults_eq, ← h.path_eq]
    exact ⟨rfl, hfault⟩

theorem wp_writeTable_firm {path : Path} {m : Machine Call Disk File} (memtable : MemTable)
    (h : Appending path f m) :
    wp T (memtable.writeTable c) (fun _ m' => path.area.Firm f m'.disk m'.history)
      (fun _ m' => path.area.Growing f m'.disk m'.history) m := by
  unfold MemTable.writeTable
  apply wp_bind
  apply wp_mono (Appends.context _ _ T path f m h) _ fun e m' _ _ h' => h'
  intro bitCount m1 _ h1
  apply wp_bind
  apply wp_mono (Appends.writeEntries _ _ T path f m1 h1) _ fun e m' _ _ h' => h'
  intro filter m2 _ h2
  apply wp_bind
  apply wp_mono (Appends.writeAll _ T path f m2 h2) _ fun e m' _ _ h' => h'
  intro _ m3 _ h3
  split
  . exact wp_raise h3.growing
  . apply wp_bind
    apply wp_mono (Appends.writeAll _ T path f m3 h3) _ fun e m' _ _ h' => h'
    intro _ m4 _ h4
    exact wp_syncAll_firm h4

/-! What is synced -/

/--
Nothing can be lost of the tables in `K`, only `S` can remain of the WAL, and the tables `old` are there.
-/
structure Secured (f : Nat → Option Nat) (K : Set String) (S : Set Bytes) (old : List String)
    (d : Disk) (history : List (Step Call Disk)) : Prop where
  named : Named d
  there : ∀ name ∈ old, name ∈ d.sstables.keys
  tables : ∀ name ∈ K, (Path.sstable name).area.Firm f d history
  wal : ∀ bytes, Path.wal.area.Remains f d history bytes → bytes ∈ S

-- the table `name` is being written, nothing can be lost of the other ones
def Writing (f : Nat → Option Nat) (S : Set Bytes) (old : List String) (name : String) (d : Disk)
    (history : List (Step Call Disk)) : Prop :=
  Secured f {name' | name' ≠ name} S old d history
    ∧ ∃ i < d.ticks, name = MemTable.fileName (d.clock i)

/--
The tables `old` are synced. Only the end can be lost of those that have come to them.
-/
structure Halfway (f : Nat → Option Nat) (S : Set Bytes) (old : List String) (d : Disk)
    (history : List (Step Call Disk)) : Prop where
  secured : Secured f {name | name ∈ old} S old d history
  growing : ∀ name, (Path.sstable name).area.Growing f d history

namespace Secured

variable {K : Set String} {S : Set Bytes} {old : List String} {d d' : Disk} {call : Call}
variable {history : List (Step Call Disk)}

theorem step (h : Secured f K S old d history) (hsstables : d'.sstables = d.sstables)
    (hwal : d'.wal = d.wal) (hnamed : Named d') : Secured f K S old d' (⟨call, d⟩ :: history) := by
  refine ⟨hnamed, ?_, ?_, ?_⟩
  . rw [hsstables]
    exact h.there
  . intro name hname
    apply (h.tables name hname).step
    rw [area_sstable, area_sstable, hsstables]
  . intro bytes hbytes
    apply h.wal bytes
    apply hbytes.of_eq
    rw [area_wal, area_wal, hwal]

theorem readStable : ReadStable (Secured f K S old) :=
  fun _ _ _ _ h => h.step rfl rfl h.named

theorem mono {K' : Set String} {S' : Set Bytes} {old' : List String}
    (h : Secured f K S old d history) (hK : K' ⊆ K) (hS : S ⊆ S') (hold : old' ⊆ old) :
    Secured f K' S' old' d history :=
  ⟨h.named, fun name hname => h.there name (hold hname), fun name hname => h.tables name (hK hname),
    fun bytes hbytes => hS (h.wal bytes hbytes)⟩

theorem halfway (h : Secured f Set.univ S old d history) : Halfway f S old d history :=
  ⟨h.mono (Set.subset_univ _) (fun _ h => h) fun _ h => h, fun name => (h.tables name trivial).growing⟩

theorem write_sstable (h : Secured f K S old d history) {name : String} (hname : name ∉ K)
    (hnamed : ∃ i < d.ticks, name = MemTable.fileName (d.clock i)) (contents : Contents) :
    Secured f K S old (d.write (.sstable name) contents) (⟨call, d⟩ :: history) := by
  refine ⟨?_, ?_, ?_, ?_⟩
  . intro name' hname'
    cases (SortedMap.mem_keys_insert _ _ _ _).mp hname' with
    | inl heq =>
      rw [heq]
      exact hnamed
    | inr hmem => exact h.named name' hmem
  . intro name' hname'
    exact (SortedMap.mem_keys_insert _ _ _ _).mpr (Or.inr (h.there name' hname'))
  . intro name' hname'
    apply (h.tables name' hname').step
    rw [area_write, if_neg]
    intro heq
    cases heq
    exact hname hname'
  . intro bytes hbytes
    apply h.wal bytes
    apply hbytes.of_eq
    rw [area_write, if_neg (by simp)]

theorem writeStable_sstable (name : String) :
    WriteStable (Writing f S old name) (.sstable name) := by
  constructor
  . rintro d history call hcall ⟨h, hnamed⟩
    exact ⟨readStable d history call hcall h, hnamed⟩
  . rintro d history call contents hcall ⟨h, hnamed⟩
    exact ⟨h.write_sstable (by simp) hnamed contents, hnamed⟩

theorem write_wal (h : Secured f K Set.univ old d history) (contents : Contents) :
    Secured f K Set.univ old (d.write .wal contents) (⟨call, d⟩ :: history) := by
  refine ⟨h.named, h.there, ?_, fun _ _ => trivial⟩
  intro name hname
  apply (h.tables name hname).step
  rw [area_write, if_neg (by simp)]

theorem finished {name : String} (h : Secured f {name' | name' ≠ name} S old d history)
    (hfirm : (Path.sstable name).area.Firm f d history) : Secured f Set.univ S old d history := by
  refine ⟨h.named, h.there, ?_, h.wal⟩
  intro name' _
  by_cases heq : name' = name
  . rw [heq]
    exact hfirm
  . exact h.tables name' heq

theorem unfinished {name : String} (h : Secured f {name' | name' ≠ name} S old d history)
    (hgrowing : (Path.sstable name).area.Growing f d history) (hnew : name ∉ old) :
    Halfway f S old d history := by
  constructor
  . refine h.mono ?_ (fun _ h => h) fun _ h => h
    intro name' hname' heq
    rw [← heq] at hnew
    exact hnew hname'
  . intro name'
    by_cases heq : name' = name
    . rw [heq]
      exact hgrowing
    . exact (h.tables name' heq).growing

theorem removed (h : Secured f Set.univ S [] d history) (name : String) :
    Secured f Set.univ S [] (d.remove name) (⟨call, d⟩ :: history) := by
  refine ⟨h.named.remove name, by simp, ?_, ?_⟩
  . intro name' _
    have hget : (d.remove name).sstables.get? name'
        = if name' = name then none else d.sstables.get? name' := SortedMap.get?_erase _ _ _
    by_cases heq : name' = name
    . apply Area.Firm.absent
      rw [area_sstable, hget, if_pos heq]
      rfl
    . apply (h.tables name' trivial).step
      rw [area_sstable, area_sstable, hget, if_neg heq]
  . intro bytes hbytes
    exact h.wal bytes (hbytes.of_eq rfl)

theorem keeps_removeFile (name : String) :
    Keeps (Throughout (Secured f Set.univ S [])) (removeFile name : Os σ Unit) := by
  apply Keeps.syscall
  . intro m h
    split
    . exact Secured.removed h name
    . exact Secured.step h rfl rfl h.named
  . intro m n h
    exact Secured.step h rfl rfl h.named

end Secured

variable {S : Set Bytes} {old : List String}

theorem appending_created {m : Machine Call Disk File} {d : Disk} {call : Call} {name : String}
    {history : List (Step Call Disk)} (hnone : d.sstables.get? name = none) (hfaults : m.faults = f)
    (hself : m.self = ⟨.sstable name, 0⟩) (hdisk : m.disk = d.write (.sstable name) .empty)
    (hhistory : m.history = ⟨call, d⟩ :: history) : Appending (.sstable name) f m := by
  refine ⟨hfaults, ?_, ⟨.empty, ?_, ?_⟩, ?_⟩
  . rw [hself]
  . rw [hdisk, Disk.get?_write, if_pos rfl]
  . rw [hself]
    rfl
  . rw [hdisk, hhistory]
    apply Area.Firm.growing
    apply Area.Firm.of_created
    rw [area_sstable, hnone]
    rfl

theorem wp_writeTable_secured {name : String} {m : Machine Call Disk File} (memtable : MemTable)
    (h : Appending (.sstable name) f m) (hwriting : Writing f S old name m.disk m.history)
    (hnew : name ∉ old) :
    wp T (memtable.writeTable c) (fun _ m' => Secured f Set.univ S old m'.disk m'.history)
      (fun _ m' => Halfway f S old m'.disk m'.history) m := by
  have hothers : Keeps (OnFile (Writing f S old name) (.sstable name)) (memtable.writeTable c) :=
    keeps_writeTable (Secured.writeStable_sstable name) memtable
  apply wp_mono (wp_and (wp_writeTable_firm memtable h)
    (wp_keeps hothers ⟨hwriting, h.path_eq⟩ (fun _ _ h => h) fun _ _ h => h))
  . rintro _ m' _ ⟨hfirm, ⟨hwriting', -⟩, -⟩
    exact hwriting'.finished hfirm
  . rintro e m' _ _ ⟨hgrowing, ⟨hwriting', -⟩, -⟩
    exact hwriting'.unfinished hgrowing hnew

theorem wp_flushTo_secured {m : Machine Call Disk MemTable} (hT : ∀ d, T d → ClockUp d)
    (hm : m.faults = f) (h : Secured f Set.univ S old m.disk m.history) :
    wp T (MemTable.flushTo c)
      (fun _ m' => Secured f Set.univ S old m'.disk m'.history ∧ m'.self.isEmpty = true)
      (fun _ m' => Halfway f S old m'.disk m'.history ∧ m'.self = m.self
        ∧ m.self.isEmpty = false) m := by
  unfold MemTable.flushTo
  apply wp_bind
  apply wp_getSelf
  split
  . next hempty => exact wp_pure ⟨h, hempty⟩
  . next hnonempty =>
    have hnonempty : m.self.isEmpty = false := by simpa using hnonempty
    have hdir : Keeps (fun m1 => Throughout (Secured f Set.univ S old) m1 ∧ m1.self = m.self)
        createDirAll :=
      Keeps.selfless (fun self => self = m.self)
        (keeps_readCall Secured.readStable (by simp [Creationless]) _)
        (selfless_readCall fun _ _ => rfl)
    apply wp_bind
    apply wp_mono (wp_keeps hdir ⟨h, rfl⟩ (fun _ _ h => h) fun _ _ h => h)
    . rintro _ m1 hm1 ⟨h1, hself1⟩
      have hfaults1 : m1.faults = f := hm1.faults_eq.trans hm
      have hticked : Secured f Set.univ S old m1.disk.tick (⟨.now, m1.disk⟩ :: m1.history) :=
        Secured.step h1 rfl rfl h1.named.tick
      apply wp_bind
      apply wp_syscall
      . intro ts d s hact
        cases hact
        -- no table has the name that has been read from the clock
        apply wp_assume
        intro hm2
        have hfresh : nextName m1.disk ∉ m1.disk.sstables.keys :=
          fun hmem => lt_irrefl _ (h1.named.lt_nextName (hT _ hm2.1) _ hmem)
        have hnone := (SortedMap.get?_eq_none_iff _ _).mpr hfresh
        have hdated : ∃ i < m1.disk.tick.ticks,
            nextName m1.disk = MemTable.fileName (m1.disk.tick.clock i) :=
          ⟨m1.disk.ticks, Nat.lt_succ_self _, rfl⟩
        apply wp_bind
        apply wp_syscall
        . intro file d s hact
          cases hact
          apply wp_bind
          apply wp_on
          have hwriting : Writing f S old (nextName m1.disk)
              (m1.disk.tick.write (.sstable (nextName m1.disk)) .empty)
              (⟨.createFile (.sstable (nextName m1.disk)), m1.disk.tick⟩ :: ⟨.now, m1.disk⟩
                :: m1.history) := by
            have hothers := hticked.mono (Set.subset_univ {name | name ≠ nextName m1.disk})
              (fun _ h => h) fun _ h => h
            exact ⟨hothers.write_sstable (by simp) hdated .empty, hdated⟩
          apply wp_mono
          . refine wp_writeTable_secured m.self ?_ hwriting ?_
            . exact appending_created (d := m1.disk.tick) hnone hfaults1 rfl rfl rfl
            . intro hmem
              exact hfresh (h1.there _ hmem)
          . intro _ m3 _ h3
            exact wp_setSelf ⟨h3, rfl⟩
          . intro e m3 _ _ h3
            exact ⟨h3, hself1, hnonempty⟩
        . simp
        . intro n _
          exact ⟨(hticked.step rfl rfl hticked.named).halfway, hself1, hnonempty⟩
      . simp
      . intro n _
        exact ⟨hticked.halfway, hself1, hnonempty⟩
    . rintro e m1 _ _ ⟨h1, hself1⟩
      exact ⟨h1.halfway, hself1, hnonempty⟩

theorem wp_on_flushTo_secured {m : Machine Call Disk σ} (memtable : MemTable)
    (hT : ∀ d, T d → ClockUp d) (hm : m.faults = f)
    (h : Secured f Set.univ S old m.disk m.history) :
    wp T (on memtable (MemTable.flushTo c) : Os σ _)
      (fun _ m' => Secured f Set.univ S old m'.disk m'.history)
      (fun _ m' => Halfway f S old m'.disk m'.history) m := by
  apply wp_on
  apply wp_mono (wp_flushTo_secured (m := m.withSelf memtable) hT hm h)
  . rintro _ m' _ ⟨h', -⟩
    exact h'
  . rintro e m' _ _ ⟨h', -, -⟩
    exact h'

theorem wp_mergeLoop_secured (hT : ∀ d, T d → ClockUp d) (fuel : Nat) (cursors : List Cursor)
    (memtable : MemTable) (seenKeys : List String) {m : Machine Call Disk σ} (hm : m.faults = f)
    (h : Secured f Set.univ S old m.disk m.history) :
    wp T (mergeLoop c fuel cursors memtable seenKeys : Os σ _)
      (fun _ m' => Secured f Set.univ S old m'.disk m'.history)
      (fun _ m' => Halfway f S old m'.disk m'.history) m := by
  induction fuel generalizing cursors memtable seenKeys m with
  | zero => exact wp_raise h.halfway
  | succ fuel ih =>
    unfold mergeLoop
    dsimp only
    split
    . exact wp_pure h
    . apply wp_bind
      have hread : ReadStable (Secured f Set.univ S old) := Secured.readStable
      apply wp_mono (wp_keeps (keeps_mergeRound hread _ _ _ _) h (fun _ _ h => h) fun _ _ h => h)
      . rintro ⟨cursors1, memtable1, seenKeys1⟩ m1 hm1 h1
        dsimp only
        split
        . apply wp_bind
          apply wp_map
          apply wp_mono (wp_on_flushTo_secured memtable1 hT (hm1.faults_eq.trans hm) h1)
          . intro _ m2 hm2 h2
            exact ih _ _ _ (hm2.faults_eq.trans (hm1.faults_eq.trans hm)) h2
          . intro e m2 _ _ h2
            exact h2
        . apply wp_bind
          apply wp_pure
          exact ih _ _ _ (hm1.faults_eq.trans hm) h1
      . intro e m1 _ _ h1
        exact h1.halfway

/--
A compaction removes the tables only when it has synced what it has made of them.
-/
theorem wp_compact_secured {m : Machine Call Disk σ} (hT : ∀ d, T d → ClockUp d) (hm : m.faults = f)
    (h : Secured f Set.univ S old m.disk m.history) :
    wp T (compact c) (fun _ m' => Secured f Set.univ S [] m'.disk m'.history)
      (fun _ m' => Halfway f S old m'.disk m'.history
        ∨ Secured f Set.univ S [] m'.disk m'.history) m := by
  have hread : ReadStable (Secured f Set.univ S old) := Secured.readStable
  have hdelete : ∀ (names : List String) {m' : Machine Call Disk σ},
      Secured f Set.univ S old m'.disk m'.history →
      wp T (names.forM removeFile) (fun _ m' => Secured f Set.univ S [] m'.disk m'.history)
        (fun _ m' => Halfway f S old m'.disk m'.history
          ∨ Secured f Set.univ S [] m'.disk m'.history) m' := by
    intro names m' h'
    have h' := h'.mono (fun _ h => h) (fun _ h => h) (List.nil_subset old)
    exact wp_keeps (Keeps.forM Secured.keeps_removeFile names) h' (fun _ _ h => h)
      fun _ _ h => Or.inr h
  unfold compact
  apply wp_bind
  apply wp_mono (wp_keeps (keeps_readCall hread (by simp [Creationless]) _) h (fun _ _ h => h)
    fun _ _ h => h)
  . intro names m1 hm1 h1
    dsimp only
    apply wp_bind
    apply wp_mono (wp_keeps (keeps_openTables hread _) h1 (fun _ _ h => h) fun _ _ h => h)
    . intro sstables m2 hm2 h2
      apply wp_bind
      apply wp_mono (wp_keeps (keeps_firstEntries hread _) h2 (fun _ _ h => h) fun _ _ h => h)
      . intro cursors m3 hm3 h3
        have hm3 : m3.faults = f :=
          ((hm1.trans hm2).trans hm3).faults_eq.trans hm
        apply wp_bind
        apply wp_mono (wp_mergeLoop_secured hT _ _ _ _ hm3 h3)
        . intro memtable m4 hm4 h4
          split
          . apply wp_bind
            apply wp_mono (wp_on_flushTo_secured memtable hT (hm4.faults_eq.trans hm3) h4)
            . intro _ m5 _ h5
              exact hdelete _ h5
            . intro e m5 _ _ h5
              exact Or.inl h5
          . exact hdelete _ h4
        . intro e m4 _ _ h4
          exact Or.inl h4
      . intro e m3 _ _ h3
        exact Or.inl (Secured.halfway h3)
    . intro e m2 _ _ h2
      exact Or.inl (Secured.halfway h2)
  . intro e m1 _ _ h1
    exact Or.inl (Secured.halfway h1)

-- of what has been appended to `wal`, some may remain
def Appended (f : Nat → Option Nat) (S : Set Bytes) (old : List String) (wal : Contents) (d : Disk)
    (history : List (Step Call Disk)) : Prop :=
  Secured f Set.univ (S ∪ {bytes | wal.bytes <+: bytes ∧ bytes <+: d.wal.bytes}) old d history

theorem Appended.readStable {wal : Contents} : ReadStable (Appended f S old wal) :=
  fun _ _ _ _ h => Secured.step h rfl rfl (Secured.named h)

namespace Secured

variable {K : Set String} {d : Disk} {call : Call} {history : List (Step Call Disk)} {new : Contents}

theorem appended (h : Secured f Set.univ S old d history) (wal : Contents) :
    Appended f S old wal d history :=
  h.mono (fun _ h => h) Set.subset_union_left fun _ h => h

theorem append (h : Secured f Set.univ S old d history) {b : Bytes}
    (hnew : new.bytes = d.wal.bytes ++ b) :
    Appended f S old d.wal (d.write .wal new) (⟨call, d⟩ :: history) := by
  have htables : Secured f Set.univ Set.univ old (d.write .wal new) (⟨call, d⟩ :: history) :=
    (h.mono (fun _ h => h) (Set.subset_univ S) fun _ h => h).write_wal new
  refine ⟨htables.named, htables.there, htables.tables, ?_⟩
  intro bytes hbytes
  have hbegins : d.wal.bytes <+: new.bytes := by
    rw [hnew]
    exact List.prefix_append _ _
  exact (hbytes.of_append (area_wal d) (area_wal _) hbegins).imp (h.wal bytes) id

theorem cut (h : Secured f K S old d history) (hnew : new.bytes = []) :
    Secured f K (insert [] S) old (d.write .wal new) (⟨call, d⟩ :: history) := by
  have htables : Secured f K Set.univ old (d.write .wal new) (⟨call, d⟩ :: history) :=
    (h.mono (fun _ h => h) (Set.subset_univ S) fun _ h => h).write_wal new
  refine ⟨htables.named, htables.there, htables.tables, ?_⟩
  intro bytes hbytes
  have hnil : Path.wal.area.get? (d.write .wal new) = some [] := by
    rw [area_write, if_pos rfl, hnew]
  cases hbytes.of_nil hnil with
  | inl hbefore => exact Or.inr (h.wal bytes hbefore)
  | inr hnil => exact Or.inl hnil

theorem synced (h : Secured f K S old d history) (hfault : f history.length = none) :
    Secured f K {d.wal.bytes} old d (⟨.syncAll .wal, d⟩ :: history) := by
  have hstep := readStable d history (.syncAll .wal) (by simp [Creationless]) h
  refine ⟨hstep.named, hstep.there, hstep.tables, ?_⟩
  intro bytes hbytes
  have hfirm := Area.Firm.of_syncs (a := Path.wal.area) ⟨rfl, hfault⟩ rfl bytes hbytes
  rw [area_wal] at hfirm
  exact (Option.some.inj hfirm).symm

end Secured

/-! The log -/

section Log

variable {m : Machine Call Disk Log}

theorem wp_headerWrite_secured {m : Machine Call Disk File} {entry : Entry}
    (hentry : Writable c.toCodec entry) (hpath : m.self.path = .wal)
    (h : Secured f Set.univ S old m.disk m.history) :
    wp T (headerWrite c.toCodec entry)
      (fun _ m' => m'.self.path = .wal ∧ Appended f S old m.disk.wal m'.disk m'.history)
      (fun _ m' => Appended f S old m.disk.wal m'.disk m'.history) m := by
  have hread : ReadStable (Secured f Set.univ S old) := Secured.readStable
  have hend : wp T (seek (.fromEnd 0))
      (fun _ m1 => m1.disk = m.disk ∧ m1.self = ⟨.wal, m.disk.wal.length⟩) (fun _ _ => True) m := by
    apply wp_seek
    . rw [hpath]
      exact Reading.seek_fromEnd (Nat.zero_le _)
    . intro m1 hm1 hself1
      rw [hpath] at hself1
      exact ⟨hm1.disk_eq, hself1⟩
    . intro m1 _ _
      trivial
  unfold headerWrite
  apply wp_bind
  apply wp_mono (wp_and hend (wp_keeps (keeps_seek hread (.fromEnd 0)) ⟨h, rfl⟩ (fun _ _ h => h)
    fun _ _ h => h))
  . rintro _ m1 _ ⟨⟨hdisk1, hself1⟩, h1, -⟩
    apply wp_bind
    apply wp_ofExcept hentry.serializable.serialize_eq
    have hpath1 : m1.self.path = .wal := by rw [hself1]
    have hold1 : m1.disk.read m1.self.path = m.disk.wal := by
      rw [hpath1, hdisk1]
      rfl
    apply wp_mono (wp_writeAll_step _ hold1 (by rw [hself1]))
    . rintro _ m2 _ ⟨new, hnew, hdisk2, hself2, hhistory2⟩
      rw [hdisk2, hhistory2, hself2, hpath1]
      rw [← hdisk1] at hnew ⊢
      exact ⟨rfl, h1.append hnew⟩
    . rintro e m2 _ _ ⟨new, b, hnew, -, hdisk2, hhistory2⟩
      rw [hdisk2, hhistory2, hpath1]
      rw [← hdisk1] at hnew ⊢
      exact h1.append hnew
  . rintro e m1 _ _ ⟨-, h1, -⟩
    exact Secured.appended h1 _

def Synced (f : Nat → Option Nat) (S : Set Bytes) (old : List String) (wal : Contents) (d : Disk)
    (history : List (Step Call Disk)) : Prop :=
  Secured f Set.univ {d.wal.bytes} old d history ∧ Appended f S old wal d history

theorem wp_syncAll_secured {m : Machine Call Disk File} {wal : Contents} (hm : m.faults = f)
    (hpath : m.self.path = .wal) (h : Appended f S old wal m.disk m.history) :
    wp T syncAll (fun _ m' => Synced f S old wal m'.disk m'.history)
      (fun _ m' => Appended f S old wal m'.disk m'.history) m := by
  have hread : ReadStable (Appended f S old wal) := Appended.readStable
  have hcall : Creationless (.syncAll .wal) := by simp [Creationless]
  apply wp_bind
  apply wp_getSelf
  rw [hpath]
  intro _
  cases hfault : m.faults m.history.length with
  | some n =>
    rw [run_readCall_of_fault hfault]
    exact hread _ _ _ hcall h
  | none =>
    rw [run_readCall_of_ok hfault rfl]
    rw [hm] at hfault
    exact ⟨Secured.synced h hfault, hread _ _ _ hcall h⟩

theorem wp_write_secured {entry : Entry} (hentry : Writable c.toCodec entry) (hm : m.faults = f)
    (hpath : m.self.walFile.path = .wal) (h : Secured f Set.univ S old m.disk m.history) :
    wp T (Log.write c entry)
      (fun _ m' => Secured f Set.univ {m'.disk.wal.bytes} old m'.disk m'.history)
      (fun _ m' => Appended f S old m.disk.wal m'.disk m'.history) m := by
  have hprocess : ∀ entry', Keeps (Throughout (Synced f S old m.disk.wal))
      (MemTable.process c entry') := keeps_process
  unfold Log.write Log.zoomWal Log.zoomMemtable
  apply wp_bind
  apply wp_zoom
  apply wp_mono (wp_headerWrite_secured (m := m.withSelf m.self.walFile) hentry hpath h)
  . rintro _ m1 hm1 ⟨hpath1, h1⟩
    apply wp_bind
    apply wp_zoom
    apply wp_mono (wp_syncAll_secured (m := m1.withSelf m1.self) (hm1.faults_eq.trans hm) hpath1 h1)
    . intro _ m2 _ h2
      apply wp_bind
      apply wp_zoom
      refine wp_mono (wp_keeps (hprocess entry) ?_ (fun _ _ h => h) fun _ _ h => h) ?_ ?_
      . exact h2
      . intro _ m3 _ h3
        exact wp_pure h3.1
      . intro e m3 _ _ h3
        exact h3.2
    . intro e m2 _ _ h2
      exact h2
  . intro e m1 _ _ h1
    exact h1

theorem wp_setLen_secured {m : Machine Call Disk File} (hpath : m.self.path = .wal)
    (h : Secured f Set.univ S old m.disk m.history) :
    wp T (setLen 0) (fun _ m' => Secured f Set.univ (insert [] S) old m'.disk m'.history)
      (fun _ m' => Secured f Set.univ (insert [] S) old m'.disk m'.history) m := by
  have hread : ReadStable (Secured f Set.univ S old) := Secured.readStable
  apply wp_bind
  apply wp_getSelf
  rw [hpath]
  apply wp_syscall
  . intro a d s hact
    simp only [Prod.mk.injEq] at hact
    rcases hact with ⟨-, rfl, rfl⟩
    rw [hpath]
    exact h.cut rfl
  . simp
  . intro n _
    exact (hread _ _ _ (by simp [Creationless]) h).mono (fun _ h => h) (Set.subset_insert _ _)
      fun _ h => h

/--
A flush cuts the WAL only when it has synced the new table. Where it has not, the memtable is left.
-/
theorem wp_flushTables_secured (hT : ∀ d, T d → ClockUp d) (hm : m.faults = f)
    (hpath : m.self.walFile.path = .wal) (h : Secured f Set.univ S old m.disk m.history) :
    wp T (Log.flushTables c)
      (fun _ m' => Secured f Set.univ (insert [] S) old m'.disk m'.history)
      (fun _ m' => Halfway f S old m'.disk m'.history ∧ m'.self.memtable.isEmpty = false
        ∨ Secured f Set.univ (insert [] S) old m'.disk m'.history
          ∧ m'.self.memtable.isEmpty = true) m := by
  have hread : ReadStable (Secured f Set.univ (insert [] S) old) := Secured.readStable
  unfold Log.flushTables Log.zoomMemtable Log.zoomWal
  apply wp_bind
  apply wp_zoom
  apply wp_mono (wp_flushTo_secured (m := m.withSelf m.self.memtable) hT hm h)
  . rintro _ m1 _ ⟨h1, hempty⟩
    apply wp_bind
    apply wp_zoom
    apply wp_mono
    . apply wp_setLen_secured
      . exact hpath
      . exact h1
    . intro _ m2 _ h2
      apply wp_bind
      apply wp_zoom
      apply wp_mono (wp_keeps (keeps_seek hread _) ⟨h2, rfl⟩ (fun _ _ h => h) fun _ _ h => h)
      . rintro _ m3 _ ⟨h3, -⟩
        apply wp_bind
        apply wp_getSelf
        exact wp_setSelf h3
      . rintro e m3 _ _ ⟨h3, -⟩
        exact Or.inr ⟨h3, hempty⟩
    . intro e m2 _ _ h2
      exact Or.inr ⟨h2, hempty⟩
  . rintro e m1 _ _ ⟨h1, hself1, hnonempty⟩
    apply Or.inl
    refine ⟨h1, ?_⟩
    change m1.self.isEmpty = false
    rw [hself1]
    exact hnonempty

theorem keeps_reopen_secured : Keeps (Throughout (Secured f Set.univ S old)) (Log.reopen c) := by
  have hread : ReadStable (Secured f Set.univ S old) := Secured.readStable
  have hdir : Keeps (Throughout (Secured f Set.univ S old)) (createDirAll : Os Log Unit) :=
    keeps_readCall hread (by simp [Creationless]) _
  have hcreate : Keeps (Throughout (Secured f Set.univ S old)) (createFile .wal false : Os Log _) := by
    apply Keeps.syscall
    . intro m h
      exact Secured.step h rfl rfl h.named
    . intro m n h
      exact Secured.step h rfl rfl h.named
  have hreadDir : Keeps (Throughout (Secured f Set.univ S old)) (readDir : Os Log _) :=
    keeps_readCall hread (by simp [Creationless]) _
  unfold Log.reopen Log.new
  refine Keeps.bind (Keeps.bind hdir fun _ => Keeps.bind hdir fun _ => Keeps.bind hcreate fun file =>
    Keeps.bind (keeps_onFile (keeps_fromFile hread)) fun _ => Keeps.bind hreadDir fun _ =>
      Keeps.pure _) fun log => Keeps.setSelf fun _ h => h

end Log

end Chickadee
