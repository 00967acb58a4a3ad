import Chickadee.Impl.Concrete
import Chickadee.Impl.Run
import Chickadee.Lemmas.Log

/-!
This module contains what a failing call makes of the opening of a log. The loop of `from_file` ends
where `header_read_next` fails, as if there were no more entries.
-/

namespace Chickadee

open Faulty Faulty.Io Resync

variable {σ : Type} {c : Crates}

def callsOf {σ : Type} (m : Machine Call Disk σ) : List Call :=
  (m.history.map Step.call).reverse

theorem wp_fromFileLoop {T : Disk → Prop} {contents : Contents} (fuel : Nat) {memtable : MemTable}
    (hholds : memtable.Holds (Serializable c.toCodec)) {m : Machine Call Disk File}
    (hread : m.disk.read m.self.path = contents) (hpos : m.self.pos ≤ contents.length)
    (hfuel : (recordsFrom c contents contents.length m.self.pos).length < fuel)
    (hentries : ∀ entry ∈ recordsFrom c contents contents.length m.self.pos,
      Serializable c.toCodec entry)
    {Q : MemTable → Machine Call Disk File → Prop}
    {E : Failure Error → Machine Call Disk File → Prop}
    (hok : ∀ m' n, Reads m m' → m'.self.path = m.self.path →
      Q (((recordsFrom c contents contents.length m.self.pos).take n).foldl
        (MemTable.processed c) memtable) m') :
    wp T (MemTable.fromFileLoop c fuel memtable) Q E m := by
  induction fuel generalizing memtable m with
  | zero => exact absurd hfuel (Nat.not_lt_zero _)
  | succ fuel ih =>
    unfold MemTable.fromFileLoop
    apply wp_bind
    apply wp_attempt
    apply reading_headerReadNext contents m.self.pos T _ _ m hread rfl
    . intro m1 hm1 hself1
      dsimp only
      have hpath1 : m1.self.path = m.self.path := by rw [hself1]
      cases hentry : (readNext c.toCodec contents m.self.pos).1 with
      | none => exact wp_pure (hok m1 0 hm1 hpath1)
      | some entry =>
        have hcons := recordsFrom_of_readNext_some hpos hentry
        rw [hcons] at hfuel hentries hok
        have hserializable := hentries entry List.mem_cons_self
        have hpos1 : m1.self.pos = (readNext c.toCodec contents m.self.pos).2 := by rw [hself1]
        apply wp_bind
        apply wp_on
        apply wp_of_run (MemTable.run_process hholds hserializable)
        apply ih (hholds.processed hserializable)
        . rw [Machine.withSelf_disk, Machine.withSelf_disk, Machine.withSelf_disk, hm1.disk_eq,
            Machine.withSelf_self, hself1]
          exact hread
        . rw [Machine.withSelf_self, hpos1]
          exact readNext_le hpos
        . rw [Machine.withSelf_self, hpos1]
          exact Nat.lt_of_succ_lt_succ hfuel
        . rw [Machine.withSelf_self, hpos1]
          exact fun e he => hentries e (List.mem_cons_of_mem _ he)
        . intro m' n hm' hpath'
          rw [Machine.withSelf_self, hpos1]
          apply hok m' (n + 1) (hm1.trans hm'.of_withSelf.of_withSelf.of_withSelf)
          exact hpath'.trans hpath1
    . intro m1 hm1 hpath1
      exact wp_pure (hok m1 0 hm1 hpath1)

theorem wp_fromFile {T : Disk → Prop} {m : Machine Call Disk File}
    (hserializable : ∀ entry ∈ replayed c (m.disk.read m.self.path), Serializable c.toCodec entry)
    {Q : MemTable → Machine Call Disk File → Prop}
    {E : Failure Error → Machine Call Disk File → Prop}
    (hok : ∀ m' n, Reads m m' → m'.self.path = m.self.path →
      Q (((replayed c (m.disk.read m.self.path)).take n).foldl (MemTable.processed c) .new) m')
    (hfail : ∀ m', Reads m m' → E .fault m') : wp T (MemTable.fromFile c) Q E m := by
  unfold MemTable.fromFile
  apply wp_bind
  apply wp_seek (Reading.seek_start 0)
  . intro m1 hm1 hself1
    have hread1 : m1.disk.read m1.self.path = m.disk.read m.self.path := by
      rw [hm1.disk_eq, hself1]
    have hpos1 : m1.self.pos = 0 := by rw [hself1]
    apply wp_bind
    apply wp_getSelf
    apply wp_bind
    apply wp_peek
    dsimp only
    rw [hread1]
    apply wp_fromFileLoop _ (MemTable.holds_new _) hread1
    . rw [hpos1]
      exact Nat.zero_le _
    . rw [hpos1]
      exact Nat.lt_succ_of_le (length_recordsFrom_le _ _ _)
    . rw [hpos1]
      exact hserializable
    . intro m' n hm' hpath'
      rw [hpos1]
      apply hok m' n (hm1.trans hm')
      rw [hpath', hself1]
  . intro m' hm' _
    exact hfail m' hm'

theorem wp_new {T : Disk → Prop} {m : Machine Call Disk σ}
    (hserializable : ∀ entry ∈ replayed c m.disk.wal, Serializable c.toCodec entry)
    {Q : Log → Machine Call Disk σ → Prop} {E : Failure Error → Machine Call Disk σ → Prop}
    (hok : ∀ log m' n, Reads m m' → m'.self = m.self → log.walFile.path = .wal →
      log.memtable = ((replayed c m.disk.wal).take n).foldl (MemTable.processed c) .new → Q log m')
    (hfail : ∀ m', Reads m m' → m'.self = m.self → E .fault m') : wp T (Log.new c false) Q E m := by
  unfold Log.new
  apply wp_bind
  apply wp_createDirAll _ hfail
  intro m1 hm1 hself1
  apply wp_bind
  apply wp_createDirAll
  . intro m2 hm2 hself2
    have hm2 := hm1.trans hm2
    have hself2 := hself2.trans hself1
    apply wp_bind
    apply wp_createFile
    . intro m3 hm3 hdisk3 hself3
      have hm3 : Reads m m3 := ⟨hm2.later.trans hm3, hdisk3.trans hm2.disk_eq⟩
      have hself3 := hself3.trans hself2
      have hwal3 : m3.disk.wal = m.disk.wal := by rw [hm3.disk_eq]
      apply wp_bind
      apply wp_on
      apply wp_fromFile
      . change ∀ entry ∈ replayed c m3.disk.wal, _
        rw [hwal3]
        exact hserializable
      . intro m4 n hm4 hpath4
        have hm4 := hm3.trans hm4.of_withSelf
        apply wp_bind
        apply wp_readDir
        . intro m5 hm5 hself5
          apply wp_pure
          apply hok _ m5 n (hm4.trans hm5.of_withSelf) (hself5.trans hself3) hpath4
          change ((replayed c m3.disk.wal).take n).foldl _ _ = _
          rw [hwal3]
        . intro m5 hm5 hself5
          exact hfail m5 (hm4.trans hm5.of_withSelf) (hself5.trans hself3)
      . intro m4 hm4
        exact hfail _ ((hm3.trans hm4.of_withSelf).withSelf _) hself3
    . intro m3 hm3 hself3
      exact hfail m3 (hm2.trans hm3) (hself3.trans hself2)
  . intro m2 hm2 hself2
    exact hfail m2 (hm1.trans hm2) (hself2.trans hself1)

/--
Behind its first call, `from_file` does not fail.
-/
theorem run_fromFile_of_seek {m : Machine Call Disk File}
    (hserializable : ∀ entry ∈ replayed c (m.disk.read m.self.path), Serializable c.toCodec entry)
    (hseek : m.faults m.history.length = none) :
    ∃ memtable m', (MemTable.fromFile c).run m = .ok memtable m' ∧ Extends m m' := by
  have hrun : (seek (.start 0)).run m
      = .ok () (m.record (.seek m.self.path (.start 0)) m.disk { m.self with pos := 0 }) := by
    unfold seek
    rw [run_bind_of_ok (run_getSelf m)]
    exact run_readCall_of_ok hseek rfl
  have hwp : wp (fun _ => True) (MemTable.fromFile c) (fun _ m' => Extends m m')
      (fun _ _ => False) m := by
    unfold MemTable.fromFile
    apply wp_bind
    apply wp_of_run hrun
    apply wp_bind
    apply wp_getSelf
    apply wp_bind
    apply wp_peek
    apply wp_fromFileLoop _ (MemTable.holds_new _) rfl
    . exact Nat.zero_le _
    . exact Nat.lt_succ_of_le (length_recordsFrom_le _ _ _)
    . exact hserializable
    . intro m' _ hm' _
      exact (Extends.record ..).trans hm'.later
  have hwp := hwp ⟨trivial, fun _ _ => trivial⟩
  cases hfile : (MemTable.fromFile c).run m with
  | ok memtable m' =>
    rw [hfile] at hwp
    exact ⟨memtable, m', rfl, hwp⟩
  | error e m' =>
    rw [hfile] at hwp
    exact hwp.elim

theorem getElem?_callsOf_record (m : Machine Call Disk σ) (call : Call) (d : Disk) (s : σ) :
    (callsOf (m.record call d s))[m.history.length]? = some call := by
  have hlen : (m.history.map Step.call).reverse.length = m.history.length := by simp
  change (List.reverse (call :: m.history.map Step.call))[m.history.length]? = some call
  rw [List.reverse_cons, ← hlen, List.getElem?_concat_length]

def newOn (c : Crates) (walFile : File) : Os σ Log := do
  let (memtable, walFile) ← on walFile (MemTable.fromFile c)
  let flushCount := (← readDir).length
  return { walFile := walFile, memtable := memtable, flushCount := flushCount }

theorem run_new_eq {m : Machine Call Disk σ}
    (h : ∀ j < 3, m.faults (m.history.length + j) = none) :
    ∃ m', Reads m m' ∧ m'.history.length = m.history.length + 3
      ∧ (Log.new c false).run m = (newOn c ⟨.wal, 0⟩).run m' := by
  have hdir : ∀ m1 : Machine Call Disk σ, m1.faults m1.history.length = none →
      (createDirAll : Os σ Unit).run m1 = .ok () (m1.record .createDirAll m1.disk m1.self) :=
    fun m1 hm1 => run_readCall_of_ok hm1 rfl
  have hfile : ∀ m1 : Machine Call Disk σ, m1.faults m1.history.length = none →
      (createFile .wal false : Os σ File).run m1
        = .ok ⟨.wal, 0⟩ (m1.record (.createFile .wal) m1.disk m1.self) :=
    fun m1 hm1 => run_syscall_of_ok hm1 rfl
  let m1 := m.record .createDirAll m.disk m.self
  let m2 := m1.record .createDirAll m.disk m.self
  have hm1 : Extends m m1 := Extends.record ..
  have hm2 : Extends m1 m2 := Extends.record ..
  refine ⟨m2.record (.createFile .wal) m.disk m.self, ⟨?_, rfl⟩, rfl, ?_⟩
  . exact (hm1.trans hm2).trans (Extends.record ..)
  . have hrun1 := hdir m (h 0 (by decide))
    have hrun2 := hdir m1 (h 1 (by decide))
    have hrun3 := hfile m2 (h 2 (by decide))
    exact (run_bind_of_ok hrun1).trans ((run_bind_of_ok hrun2).trans (run_bind_of_ok hrun3))

/--
While a log is opened, only a failure of the call that moves the cursor to the start of the WAL is
reported. After a failure of any other call of the replay the log is opened with what has been read so
far.
-/
theorem new_error_iff {d : Disk} {s : σ} {i n : Nat} (hi : 3 ≤ i)
    (hserializable : ∀ entry ∈ replayed c d.wal, Serializable c.toCodec entry)
    (hreplay : (callsOf ((Log.new c false).run
      ((Machine.boot d s).withFaults (failAt i n))).machine)[i]? ≠ some .readDir) :
    (∃ e m', (Log.new c false).run ((Machine.boot d s).withFaults (failAt i n)) = .error e m')
      ↔
    i = 3 := by
  have hfault : ∀ {j}, j ≠ i → failAt i n j = none := fun hj => if_neg hj
  have hpart := run_new_eq (c := c) (m := (Machine.boot d s).withFaults (failAt i n))
    (fun j hj => hfault (by change 0 + j ≠ i; omega))
  rcases hpart with ⟨m3, hm3, hlen3, hrun3⟩
  have hfaults3 : m3.faults = failAt i n := hm3.later.faults_eq
  have hlen3 : m3.history.length = 3 := hlen3
  rw [hrun3] at hreplay ⊢
  constructor
  . rintro ⟨e, m', hrun⟩
    by_contra hne
    have hopen := run_fromFile_of_seek (c := c) (m := m3.withSelf ⟨.wal, 0⟩)
      (by rw [Machine.withSelf_disk, hm3.disk_eq]; exact hserializable)
      (by
        change m3.faults m3.history.length = none
        rw [hfaults3, hlen3]
        exact hfault (Ne.symm hne))
    rcases hopen with ⟨memtable, m4, hrun4, hm4⟩
    have hon : (on ⟨.wal, 0⟩ (MemTable.fromFile c) : Os σ _).run m3
        = .ok (memtable, m4.self) (m4.withSelf m3.self) := by
      simp only [on, hrun4]
    have hfaults4 : m4.faults = failAt i n := hm4.faults_eq.trans hfaults3
    unfold newOn at hrun hreplay
    rw [run_bind_of_ok hon] at hrun hreplay
    by_cases hlast : m4.history.length = i
    . -- the listing of the directory is the call that fails
      have hdir : (readDir : Os σ _).run (m4.withSelf m3.self)
          = .error .fault ((m4.withSelf m3.self).record .readDir m4.disk m3.self) := by
        apply run_readCall_of_fault (n := n)
        change m4.faults m4.history.length = some n
        rw [hfaults4, hlast]
        exact if_pos rfl
      dsimp only at hreplay
      rw [run_bind_of_error hdir, ← hlast] at hreplay
      exact hreplay (getElem?_callsOf_record (m4.withSelf m3.self) .readDir m4.disk m3.self)
    . have hdir : (readDir : Os σ _).run (m4.withSelf m3.self)
          = .ok m4.disk.sstables.keys
            ((m4.withSelf m3.self).record .readDir m4.disk m3.self) := by
        apply run_readCall_of_ok _ rfl
        change m4.faults m4.history.length = none
        rw [hfaults4]
        exact hfault hlast
      dsimp only at hrun
      rw [run_bind_of_ok hdir] at hrun
      contradiction
  . intro heq
    have hseek : ∃ m', (MemTable.fromFile c).run (m3.withSelf ⟨.wal, 0⟩) = .error .fault m' := by
      have hcall : ∃ m', (seek (.start 0)).run (m3.withSelf ⟨.wal, 0⟩) = .error .fault m' := by
        unfold seek
        rw [run_bind_of_ok (run_getSelf _)]
        refine ⟨_, run_readCall_of_fault (n := n) ?_⟩
        change m3.faults m3.history.length = some n
        rw [hfaults3, hlen3, heq]
        exact if_pos rfl
      rcases hcall with ⟨m', hcall⟩
      exact ⟨m', run_bind_of_error hcall⟩
    rcases hseek with ⟨m', hseek⟩
    have hon : (on ⟨.wal, 0⟩ (MemTable.fromFile c) : Os σ _).run m3
        = .error .fault (m'.withSelf m3.self) := by
      simp only [on, hseek]
    exact ⟨_, _, run_bind_of_error hon⟩

def openedDisk : Disk :=
  { Disk.empty Nat.succ with
    wal := .clip (encodedAll Concrete.crates.toCodec [.set "a" "b"]) }

theorem new_hides_failure :
    (callsOf ((Log.new Concrete.crates false).run
        ((Machine.boot openedDisk ()).withFaults (failAt 8 0))).machine)[8]? = some (.readToEnd .wal)
      ∧ (((Log.new Concrete.crates false).run (Machine.boot openedDisk ())).value?.map fun log =>
          log.memtable.inner.entries) = some [("a", .set "a" "b")]
      ∧ (((Log.new Concrete.crates false).run
          ((Machine.boot openedDisk ()).withFaults (failAt 8 0))).value?.map fun log =>
          log.memtable.inner.entries) = some [] := by
  refine ⟨?_, ?_, ?_⟩
  . decide +kernel
  . decide +kernel
  . decide +kernel

/--
A failure of the seek to the start of the WAL is reported, one of a read of its record is not.
-/
theorem new_error_iff_openedDisk :
    (∃ e m', (Log.new Concrete.crates false).run
        ((Machine.boot openedDisk ()).withFaults (failAt 3 0)) = .error e m')
      ∧ ¬∃ e m', (Log.new Concrete.crates false).run
        ((Machine.boot openedDisk ()).withFaults (failAt 8 0)) = .error e m' := by
  have hserializable : ∀ entry ∈ replayed Concrete.crates openedDisk.wal,
      Serializable Concrete.crates.toCodec entry := by
    intro entry hentry
    have hreplayed : replayed Concrete.crates openedDisk.wal = [.set "a" "b"] := by decide +kernel
    rw [hreplayed] at hentry
    rw [List.mem_singleton.mp hentry]
    exact (Writable.of_check _ (by decide +kernel)).serializable
  constructor
  . rw [new_error_iff (Nat.le_refl 3) hserializable (by decide +kernel)]
  . rw [new_error_iff (by decide) hserializable (by decide +kernel)]
    decide

end Chickadee
