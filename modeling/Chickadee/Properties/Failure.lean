import Chickadee.Lemmas.Account
import Chickadee.Properties.Arbitrary
import Chickadee.Properties.Naming
import Chickadee.Properties.Opening

/-!
This module contains what a write that fails leaves: the log answers as before, and so does a log that is
opened next, unless the whole record is in the WAL or a record decodes from a part of it.
-/

namespace Chickadee

open Faulty Faulty.Io Layers Resync

variable {T : Disk → Prop} {c : Crates}

/--
The states that operations lead to from an empty directory, wherever they fail.
-/
inductive Reached (c : Crates) : Store → Prop where
  | fresh (clock : Nat → Nat) : Reached c (Store.fresh clock)
  | step {m : Store} (h : Reached c m) (op : Op) (faults : Nat → Option Nat) :
    Reached c ((op.exec c).run (m.withFaults faults)).machine

theorem Reached.path_eq {m : Store} (h : Reached c m) : m.self.walFile.path = .wal := by
  have hdated : ∃ clock, DatedLog clock m := by
    induction h with
    | fresh clock => exact ⟨clock, datedLog_fresh fun _ => none⟩
    | step _ op faults ih =>
      rcases ih with ⟨clock, hdated⟩
      exact ⟨clock, keeps_exec op _ hdated⟩
  rcases hdated with ⟨_, hdated⟩
  exact hdated.2

theorem wp_process_get (entry : Entry) {m : Machine Call Disk MemTable} :
    wp T (MemTable.process c entry) (fun _ _ => True)
      (fun _ m' => m'.disk = m.disk ∧ ∀ key, m'.self.get key = m.self.get key) m := by
  have hrest : ∀ m1 : Machine Call Disk MemTable, m1.disk = m.disk →
      (∀ key, m1.self.get key = m.self.get key) → wp T (do
        let size ← ofExcept (MemTable.entrySize c entry)
        let self ← getSelf
        setSelf (self.store entry (saturatingAdd self.size size))
        return self.inner.get? entry.key) (fun _ _ => True)
        (fun _ m' => m'.disk = m.disk ∧ ∀ key, m'.self.get key = m.self.get key) m1 := by
    intro m1 hdisk1 hget1
    apply wp_bind
    cases MemTable.entrySize c entry with
    | error err => exact wp_raise ⟨hdisk1, hget1⟩
    | ok size =>
      apply wp_pure
      apply wp_bind
      apply wp_getSelf
      apply wp_bind
      apply wp_setSelf
      exact wp_pure trivial
  unfold MemTable.process
  apply wp_bind
  apply wp_getSelf
  cases m.self.inner.get? entry.key with
  | none => exact hrest m rfl fun _ => rfl
  | some previous =>
    apply wp_bind
    cases MemTable.entrySize c previous with
    | error err => exact wp_raise ⟨rfl, fun _ => rfl⟩
    | ok previousSize =>
      apply wp_pure
      apply wp_bind
      apply wp_setSelf
      exact hrest _ rfl fun _ => rfl

theorem serializable_of_serialize {entry : Entry} {bytes : Bytes}
    (h : Serializer.serialize c.toCodec entry = .ok bytes) : Serializable c.toCodec entry := by
  unfold Serializer.serialize at h
  split at h
  . contradiction
  . next payload hpayload =>
    dsimp only at h
    split at h
    . contradiction
    . next hlt => exact ⟨payload, hpayload, Nat.not_le.mp hlt⟩

theorem wp_write_failed (entry : Entry) {m : Machine Call Disk Log}
    (hpath : m.self.walFile.path = .wal) :
    wp T (Log.write c entry) (fun _ _ => True) (fun _ m' => ∃ new torn,
      new.bytes = m.disk.wal.bytes ++ torn ∧ torn <+: encoded c.toCodec entry
        ∧ m'.disk = m.disk.write .wal new
        ∧ ∀ key, m'.self.memtable.get key = m.self.memtable.get key) m := by
  cases hserialize : Serializer.serialize c.toCodec entry with
  | error err =>
    apply wp_write_of_error hserialize
    intro e m' hm' _ hmemtable _
    refine ⟨m.disk.wal, [], by simp, List.nil_prefix, ?_, fun key => by rw [hmemtable]⟩
    rw [hm'.disk_eq]
    rfl
  | ok bytes =>
    have hentry := serializable_of_serialize hserialize
    have hread : (m.withSelf m.self.walFile).disk.read (m.withSelf m.self.walFile).self.path
        = m.disk.wal := by
      rw [Machine.withSelf_disk, Machine.withSelf_self, hpath]
      rfl
    unfold Log.write Log.zoomWal Log.zoomMemtable
    apply wp_bind
    apply wp_zoom
    apply wp_headerWrite hentry hread
    . rw [Machine.withSelf_disk, Machine.withSelf_self, hpath]
      rfl
    . intro m1 new _ hnew hdisk1 _
      rw [Machine.withSelf_disk, Machine.withSelf_self, hpath] at hdisk1
      apply wp_bind
      apply wp_zoom
      apply wp_syncAll
      . intro m2 hm2 _
        have hdisk2 : m2.disk = m.disk.write .wal new := by
          rw [hm2.disk_eq]
          exact hdisk1
        apply wp_bind
        apply wp_zoom
        apply wp_mono (wp_process_get entry)
        . intro _ _ _ _
          exact wp_pure trivial
        . rintro e m3 _ _ ⟨hdisk3, hget3⟩
          exact ⟨new, _, hnew, List.prefix_refl _, hdisk3.trans hdisk2, hget3⟩
      . intro m2 hm2 _
        refine ⟨new, _, hnew, List.prefix_refl _, ?_, fun _ => rfl⟩
        exact hm2.disk_eq.trans hdisk1
    . intro e m' new b _ hnew hb _ hdisk _ _
      rw [Machine.withSelf_disk, Machine.withSelf_self, hpath] at hdisk
      exact ⟨new, b, hnew, hb, hdisk, fun _ => rfl⟩

-- no record decodes at an offset where none has decoded before
def NoneRevived (c : Crates) (old new : Contents) : Prop :=
  ∀ q, (parseRecord c.toCodec (new.bytes.drop q)).isSome →
    (parseRecord c.toCodec (old.bytes.drop q)).isSome

-- neither does one but at the end of what there was before
def OneAppended (c : Crates) (old new : Contents) : Prop :=
  ∀ q, q ≠ old.length → (parseRecord c.toCodec (new.bytes.drop q)).isSome →
    (parseRecord c.toCodec (old.bytes.drop q)).isSome

theorem NoneRevived.oneAppended {old new : Contents} (h : NoneRevived c old new) :
    OneAppended c old new :=
  fun q _ hq => h q hq

theorem replayed_append {old new : Contents} {tail : Bytes} (hnew : new.bytes = old.bytes ++ tail)
    (h : OneAppended c old new) :
    replayed c new = replayed c old
      ++ (drain (recordParser c.toCodec) new.bytes new.length old.length).map Prod.snd := by
  have hlen : old.length ≤ new.length := by
    unfold Contents.length
    rw [hnew, List.length_append]
    exact Nat.le_add_right _ _
  have hstable : ∀ q < old.bytes.length, (recordParser c.toCodec).parse ((old.bytes ++ tail).drop q)
      = (recordParser c.toCodec).parse (old.bytes.drop q) := by
    intro q hq
    change parseRecord c.toCodec _ = parseRecord c.toCodec _
    cases hold : parseRecord c.toCodec (old.bytes.drop q) with
    | some r =>
      rw [List.drop_append_of_le_length (Nat.le_of_lt hq)]
      exact parseRecord_append hold tail
    | none =>
      rw [← hnew, ← Option.not_isSome_iff_eq_none]
      intro hsome
      have hsome := h q (Nat.ne_of_lt hq) hsome
      rw [hold] at hsome
      contradiction
  have hdrain := @drain_append _ _ (recordParser c.toCodec) old.bytes old.length tail new.length 0
    (Nat.zero_le _) (Nat.le_refl _) hlen hstable
  unfold replayed recordsFrom
  rw [← List.map_append, ← hnew] at *
  exact congrArg (List.map Prod.snd) hdrain

theorem NoneRevived.replayed_eq {old new : Contents} {tail : Bytes}
    (h : NoneRevived c old new) (hnew : new.bytes = old.bytes ++ tail) :
    replayed c new = replayed c old := by
  have hnothing : drain (recordParser c.toCodec) new.bytes new.length old.length = [] := by
    apply drain_of_forall_none
    intro q hq _
    by_contra hsome
    have hsome := h q (Option.isSome_iff_ne_none.mpr hsome)
    rw [List.drop_eq_nil_of_le hq] at hsome
    rw [parseRecord_short (Nat.zero_le _)] at hsome
    contradiction
  rw [replayed_append hnew h.oneAppended, hnothing, List.map_nil, List.append_nil]

theorem OneAppended.replayed_eq {old new : Contents} {entry : Entry} (h : OneAppended c old new)
    (hentry : Writable c.toCodec entry) (hnew : new.bytes = old.bytes ++ encoded c.toCodec entry) :
    replayed c new = replayed c old ++ [entry] := by
  have hlen : new.length = old.length + (encoded c.toCodec entry).length := by
    unfold Contents.length
    rw [hnew, List.length_append]
  have hparse : (recordParser c.toCodec).parse (new.bytes.drop old.length)
      = some (entry, (encoded c.toCodec entry).length) := by
    have hrecord := parseRecord_encoded hentry []
    rw [List.append_nil] at hrecord
    rw [hnew, Contents.length, List.drop_left]
    exact hrecord
  have hrest : drain (recordParser c.toCodec) new.bytes new.length
      (old.length + (encoded c.toCodec entry).length) = [] := by
    apply drain_of_forall_none
    intro q hq hq'
    unfold Contents.length at *
    omega
  rw [replayed_append hnew h, drain_of_parse _ (by omega) hparse, hrest]
  rfl

/--
A write that fails leaves the answers of the log as they are. The log that is opened next answers as
it would have done before, too, provided that what is left of the record makes no other record decode;
if the record is there as a whole, it answers as after the write.
-/
theorem write_error (hcodec : Reserializable c) {m m' : Store} (h : Reached c m)
    {faults : Nat → Option Nat} {entry : Entry} {e : Failure Error}
    (hrun : (Log.write c entry).run (m.withFaults faults) = .error e m') :
    (∀ key, m'.get c key = m.get c key)
      ∧ (∃ torn, torn <+: encoded c.toCodec entry
        ∧ m'.disk.wal.bytes = m.disk.wal.bytes ++ torn)
      ∧ (NoneRevived c m.disk.wal m'.disk.wal →
        ∀ key, m'.getReopened c key = m.getReopened c key)
      ∧ (Writable c.toCodec entry →
        m'.disk.wal.bytes = m.disk.wal.bytes ++ encoded c.toCodec entry →
        OneAppended c m.disk.wal m'.disk.wal →
        ∀ key, m'.getReopened c key
          = if key = entry.key then some (Log.visible entry) else m.getReopened c key) := by
  have hwp := wp_write_failed (T := fun _ => True) (c := c) entry (m := m.withFaults faults) h.path_eq
  rcases hwp.of_error hrun ⟨trivial, fun _ _ => trivial⟩ with ⟨new, torn, hnew, htorn, hdisk, hget⟩
  have hnew : new.bytes = m.disk.wal.bytes ++ torn := hnew
  have hreopened : ∀ m : Store, ∀ key, m.getReopened c key = some (lookup
      ((replayed c m.disk.wal).foldl (MemTable.processed c) .new) (layers c m.disk) key) :=
    fun m => m.getReopened_eq_lookup (serializable_of_mem_recordsFrom hcodec)
  have hlayers : layers c m'.disk = layers c m.disk := by
    rw [hdisk]
    rfl
  have hwal : m'.disk.wal = new := by
    rw [hdisk]
    rfl
  rw [hwal]
  refine ⟨?_, ⟨torn, htorn, hnew⟩, ?_, ?_⟩
  . intro key
    rw [Store.get_eq_lookup, Store.get_eq_lookup, hlayers, lookup, hget key]
    rfl
  . intro hnone key
    rw [hreopened, hreopened, hlayers, hwal,
      hnone.replayed_eq hnew]
  . intro hentry hbytes hone key
    rw [hreopened, hreopened, hlayers, hwal,
      hone.replayed_eq hentry hbytes, List.foldl_append]
    unfold lookup
    rw [List.foldl_cons, List.foldl_nil, MemTable.get_processed]
    by_cases hkey : key = entry.key
    . rw [if_pos hkey, if_pos hkey]
    . rw [if_neg hkey, if_neg hkey]

def emptyStore : Store :=
  ((Log.reopen Concrete.crates).run (Store.fresh Nat.succ)).machine

def writeFailing (entry : Entry) (i n : Nat) (m : Store) : Store :=
  ((Log.write Concrete.crates entry).run (m.withFaults (failAt (m.history.length + i) n))).machine

def tornStore : Store :=
  writeFailing (.set "a" "C") 1 31 emptyStore

/--
The record is there as a whole when `sync_all` fails. The first byte of a torn record may be the last one
of the torn record before it.
-/
theorem failed_write_recovered :
    ((writeFailing (.set "a" "b") 2 0 emptyStore).get Concrete.crates "a" = some none
        ∧ emptyStore.getReopened Concrete.crates "a" = some none
        ∧ (writeFailing (.set "a" "b") 2 0 emptyStore).getReopened Concrete.crates "a"
          = some (some (.set "a" "b")))
      ∧ tornStore.getReopened Concrete.crates "a" = some none
      ∧ (writeFailing (.set "x" "y") 1 1 tornStore).getReopened Concrete.crates "a"
        = some (some (.set "a" "C")) := by
  refine ⟨⟨?_, ?_, ?_⟩, ?_, ?_⟩ <;> decide +kernel

theorem noneRevived_of_check {old new : Contents}
    (h : ((List.range new.length).all fun q =>
      (parseRecord c.toCodec (new.bytes.drop q)).isNone) = true) : NoneRevived c old new := by
  intro q hq
  by_cases hlt : q < new.length
  . have hnone := List.all_eq_true.mp h q (List.mem_range.mpr hlt)
    rw [Option.isNone_iff_eq_none] at hnone
    rw [hnone] at hq
    contradiction
  . rw [List.drop_eq_nil_of_le (Nat.not_lt.mp hlt), parseRecord_short (Nat.zero_le _)] at hq
    contradiction

theorem write_error_torn :
    (∀ key, (writeFailing (.set "a" "b") 1 31 emptyStore).get Concrete.crates key
        = emptyStore.get Concrete.crates key)
      ∧ ∀ key, (writeFailing (.set "a" "b") 1 31 emptyStore).getReopened Concrete.crates key
        = emptyStore.getReopened Concrete.crates key := by
  have hreached : Reached Concrete.crates emptyStore :=
    (Reached.fresh Nat.succ).step .reopen fun _ => none
  have hvalue : ((Log.write Concrete.crates (.set "a" "b")).run
      (emptyStore.withFaults (failAt (emptyStore.history.length + 1) 31))).value? = none := by
    decide +kernel
  have hrevived : NoneRevived Concrete.crates emptyStore.disk.wal
      (writeFailing (.set "a" "b") 1 31 emptyStore).disk.wal :=
    noneRevived_of_check (by decide +kernel)
  cases hrun : (Log.write Concrete.crates (.set "a" "b")).run
      (emptyStore.withFaults (failAt (emptyStore.history.length + 1) 31)) with
  | ok a m' =>
    rw [hrun] at hvalue
    contradiction
  | error e m' =>
    have hm' : writeFailing (.set "a" "b") 1 31 emptyStore = m' := by
      unfold writeFailing
      rw [hrun]
      rfl
    rw [hm'] at hrevived ⊢
    rcases write_error reserializable_concrete hreached hrun with ⟨hget, -, hreopened, -⟩
    exact ⟨hget, hreopened hrevived⟩

end Chickadee
