import Chickadee.Impl.Concrete
import Chickadee.Impl.Run
import Chickadee.Lemmas.Stream

/-!
This module contains what a replay of the WAL makes of bytes between the records: it reads exactly the
records around them if and only if nothing decodes from these bytes. They may be what is left of a
torn append, or a record with a damaged byte.
-/

namespace Chickadee

open Faulty Faulty.Io Resync

variable {c : Crates}

/--
The replay reads `records`, each of them at its offset, and nothing else. The memtable that it returns
has processed them in this order.
-/
def Replays (c : Crates) (contents : Contents) (records : List (Nat × Entry)) : Prop :=
  drain (recordParser c.toCodec) contents.bytes contents.length 0 = records
    ∧ ∀ m : Machine Call Disk File, m.Faultless → m.disk.read m.self.path = contents →
      ∃ m', (MemTable.fromFile c).run m
        = .ok ((records.map Prod.snd).foldl (MemTable.processed c) .new) m'

-- no record decodes at an offset in `gap` when `rest` follows
def SilentBefore (c : Crates) (gap rest : Bytes) : Prop :=
  ∀ q < gap.length, parseRecord c.toCodec ((gap ++ rest).drop q) = none

def silentBeforeCheck (c : Crates) (gap rest : Bytes) : Bool :=
  (List.range gap.length).all fun q => (parseRecord c.toCodec ((gap ++ rest).drop q)).isNone

theorem silentBefore_of_check {gap rest : Bytes} (h : silentBeforeCheck c gap rest = true) :
    SilentBefore c gap rest := by
  unfold silentBeforeCheck at h
  rw [List.all_eq_true] at h
  intro q hq
  exact Option.isNone_iff_eq_none.mp (h q (List.mem_range.mpr hq))

theorem drain_gap {es es2 : List Entry} {gap : Bytes} {contents : Contents}
    (hbytes : contents.bytes = encodedAll c.toCodec es ++ (gap ++ encodedAll c.toCodec es2))
    (hes : ∀ entry ∈ es, Writable c.toCodec entry)
    (hes2 : ∀ entry ∈ es2, Writable c.toCodec entry) :
    drain (recordParser c.toCodec) contents.bytes contents.length 0
        = placed c.toCodec 0 es
          ++ placed c.toCodec ((encodedAll c.toCodec es).length + gap.length) es2
      ↔
    SilentBefore c gap (encodedAll c.toCodec es2) := by
  have hlen : contents.length = (encodedAll c.toCodec es).length
      + (gap.length + (encodedAll c.toCodec es2).length) := by
    rw [Contents.length, hbytes, List.length_append, List.length_append]
  have hbefore := drain_encodedAll [] (gap ++ encodedAll c.toCodec es2) contents.length hes
    (by simp only [List.length_nil, Nat.zero_add]; omega)
  simp only [List.nil_append, List.length_nil, Nat.zero_add] at hbefore
  rw [← hbytes] at hbefore
  have hdrop : ∀ q, contents.bytes.drop ((encodedAll c.toCodec es).length + q)
      = (gap ++ encodedAll c.toCodec es2).drop q := by
    intro q
    rw [hbytes, List.drop_length_add_append]
  rw [hbefore]
  constructor
  . intro heq q hq
    -- a record in the gap would have been read in front of the records that follow
    by_contra hsome
    have hparse : ((recordParser c.toCodec).parse
        (contents.bytes.drop ((encodedAll c.toCodec es).length + q))).isSome := by
      rw [hdrop]
      exact Option.isSome_iff_ne_none.mpr hsome
    have hpos : (encodedAll c.toCodec es).length ≤ contents.length := by omega
    rcases exists_mem_drain (recordParser c.toCodec) hpos hparse with ⟨r, hr, hle⟩
    rw [List.append_cancel_left heq] at hr
    have hge := (le_of_mem_placed hr).1
    omega
  . intro hsilent
    congr 1
    have hgap : ∀ q < gap.length, (recordParser c.toCodec).parse
        (contents.bytes.drop ((encodedAll c.toCodec es).length + q)) = none := by
      intro q hq
      rw [hdrop]
      exact hsilent q hq
    have hafter := drain_encodedAll (encodedAll c.toCodec es ++ gap) [] contents.length hes2
      (by rw [List.length_append]; omega)
    rw [List.append_nil, List.append_assoc, ← hbytes, List.length_append] at hafter
    rw [drain_of_gap _ (by omega) hgap, hafter, drain_of_forall_none, List.append_nil]
    intro q hq hq'
    unfold Contents.length at hlen
    omega

theorem replays_gap {es es2 : List Entry} {gap : Bytes} {contents : Contents}
    (hbytes : contents.bytes = encodedAll c.toCodec es ++ (gap ++ encodedAll c.toCodec es2))
    (hes : ∀ entry ∈ es, Writable c.toCodec entry)
    (hes2 : ∀ entry ∈ es2, Writable c.toCodec entry) :
    Replays c contents (placed c.toCodec 0 es
        ++ placed c.toCodec ((encodedAll c.toCodec es).length + gap.length) es2)
      ↔
    SilentBefore c gap (encodedAll c.toCodec es2) := by
  rw [← drain_gap hbytes hes hes2]
  constructor
  . intro h
    exact h.1
  . intro hdrain
    refine ⟨hdrain, ?_⟩
    intro m hm hread
    have hreplayed : replayed c contents = es ++ es2 := by
      unfold replayed recordsFrom
      rw [hdrain, List.map_append, map_snd_placed, map_snd_placed]
    have hserializable : ∀ entry ∈ replayed c (m.disk.read m.self.path),
        Serializable c.toCodec entry := by
      intro entry hentry
      rw [hread, hreplayed] at hentry
      cases List.mem_append.mp hentry with
      | inl hmem => exact (hes entry hmem).serializable
      | inr hmem => exact (hes2 entry hmem).serializable
    rcases run_fromFile hm hserializable with ⟨m', hrun, -⟩
    rw [hread, hreplayed] at hrun
    refine ⟨m', ?_⟩
    rw [List.map_append, map_snd_placed, map_snd_placed]
    exact hrun

/--
A strict prefix of a record, left behind by an append that failed, is skipped by every later replay
if and only if nothing decodes from it together with the records that were appended after it.
-/
theorem replays_torn {es es2 : List Entry} {entry : Entry} {n : Nat} {contents : Contents}
    (hes : ∀ entry ∈ es, Writable c.toCodec entry)
    (hes2 : ∀ entry ∈ es2, Writable c.toCodec entry) (hn : n < (encoded c.toCodec entry).length)
    (hbytes : contents.bytes = encodedAll c.toCodec es
      ++ ((encoded c.toCodec entry).take n ++ encodedAll c.toCodec es2)) :
    Replays c contents (placed c.toCodec 0 es
        ++ placed c.toCodec ((encodedAll c.toCodec es).length + n) es2)
      ↔
    SilentBefore c ((encoded c.toCodec entry).take n) (encodedAll c.toCodec es2) := by
  rw [← replays_gap hbytes hes hes2, List.length_take, Nat.min_eq_left (Nat.le_of_lt hn)]

-- the record of `a => C` without its last byte, which the next record starts with
def tornWal : Contents :=
  .clip ((encoded Concrete.crates.toCodec (.set "a" "C")).take 31
    ++ encodedAll Concrete.crates.toCodec [.set "x" "y"])

def machineOn (wal : Contents) : Machine Call Disk File :=
  .boot { Disk.empty Nat.succ with wal := wal } ⟨.wal, 0⟩

theorem torn_append_revived :
    (encoded Concrete.crates.toCodec (.set "a" "C")).length = 32
      ∧ tornWal.bytes = (encoded Concrete.crates.toCodec (.set "a" "C")).take 31
        ++ encodedAll Concrete.crates.toCodec [.set "x" "y"]
      ∧ (((MemTable.fromFile Concrete.crates).run (machineOn tornWal)).value?.map fun memtable =>
          memtable.inner.entries) = some [("a", .set "a" "C")] := by
  refine ⟨?_, ?_, ?_⟩
  . decide +kernel
  . decide +kernel
  . decide +kernel

/--
With another byte at the end, the torn record is skipped.
-/
theorem replays_torn_plain :
    Replays Concrete.crates
        (.clip ((encoded Concrete.crates.toCodec (.set "a" "b")).take 31
          ++ encodedAll Concrete.crates.toCodec [.set "x" "y"]))
        [(31, .set "x" "y")] := by
  have htorn := @replays_torn Concrete.crates [] [.set "x" "y"] (.set "a" "b") 31
    (.clip ((encoded Concrete.crates.toCodec (.set "a" "b")).take 31
      ++ encodedAll Concrete.crates.toCodec [.set "x" "y"]))
    (by simp)
    (by
      intro entry hentry
      rw [List.mem_singleton.mp hentry]
      exact Writable.of_check _ (by decide +kernel))
    (by decide +kernel) (by decide +kernel)
  apply htorn.mpr
  exact silentBefore_of_check (by decide +kernel)

/--
A record in which one byte has changed, and which does not deserialize at its own start any more, costs
this record only, if and only if nothing decodes from the inside of it.
-/
theorem replays_damaged {es es2 : List Entry} {entry : Entry} {i : Nat} {byte : UInt8}
    {contents : Contents} (hes : ∀ entry ∈ es, Writable c.toCodec entry)
    (hes2 : ∀ entry ∈ es2, Writable c.toCodec entry)
    (hbytes : contents.bytes = encodedAll c.toCodec es
      ++ ((encoded c.toCodec entry).set i byte ++ encodedAll c.toCodec es2))
    (hstart : parseRecord c.toCodec
      ((encoded c.toCodec entry).set i byte ++ encodedAll c.toCodec es2) = none) :
    Replays c contents (placed c.toCodec 0 es ++ placed c.toCodec
        ((encodedAll c.toCodec es).length + (encoded c.toCodec entry).length) es2)
      ↔
    ∀ q, 0 < q → q < (encoded c.toCodec entry).length → parseRecord c.toCodec
      (((encoded c.toCodec entry).set i byte ++ encodedAll c.toCodec es2).drop q) = none := by
  have hgap := replays_gap hbytes hes hes2
  unfold SilentBefore at hgap
  rw [List.length_set] at hgap
  rw [hgap]
  constructor
  . intro h q _ hq
    exact h q hq
  . intro h q hq
    cases Nat.eq_zero_or_pos q with
    | inl hzero =>
      rw [hzero]
      exact hstart
    | inr hpos => exact h q hpos hq

def recordValue : String :=
  "CDg\x10?%\x0e\x00\x00\x00\x01\x00\x00\x00\x02\x00\x00\x00\x00\x00\x00\x00ba"

def damagedRecord : Bytes :=
  (encoded Concrete.crates.toCodec (.set "a" recordValue)).set 0 0

def damagedWal : Contents :=
  .clip (encodedAll Concrete.crates.toCodec [.set "ba" "c"] ++ (damagedRecord
    ++ encodedAll Concrete.crates.toCodec []))

theorem damaged_record_forged :
    parseRecord Concrete.crates.toCodec
        (damagedRecord ++ encodedAll Concrete.crates.toCodec []) = none
      ∧ (((MemTable.fromFile Concrete.crates).run (machineOn damagedWal)).value?.map fun memtable =>
          memtable.inner.entries) = some [("ba", .delete "ba")] := by
  refine ⟨?_, ?_⟩
  . decide +kernel
  . decide +kernel

theorem replays_damaged_plain :
    Replays Concrete.crates
        (.clip (encodedAll Concrete.crates.toCodec [.set "ba" "c"]
          ++ ((encoded Concrete.crates.toCodec (.set "a" "b")).set 0 0
            ++ encodedAll Concrete.crates.toCodec [.delete "x"])))
        [(0, .set "ba" "c"), (65, .delete "x")] := by
  have hdamaged := @replays_damaged Concrete.crates [.set "ba" "c"] [.delete "x"] (.set "a" "b") 0 0
    (.clip (encodedAll Concrete.crates.toCodec [.set "ba" "c"]
      ++ ((encoded Concrete.crates.toCodec (.set "a" "b")).set 0 0
        ++ encodedAll Concrete.crates.toCodec [.delete "x"])))
    (by
      intro entry hentry
      rw [List.mem_singleton.mp hentry]
      exact Writable.of_check _ (by decide +kernel))
    (by
      intro entry hentry
      rw [List.mem_singleton.mp hentry]
      exact Writable.of_check _ (by decide +kernel))
    (by decide +kernel) (by decide +kernel)
  apply hdamaged.mpr
  intro q _ hq
  have hsilent : SilentBefore Concrete.crates
      ((encoded Concrete.crates.toCodec (.set "a" "b")).set 0 0)
      (encodedAll Concrete.crates.toCodec [.delete "x"]) :=
    silentBefore_of_check (by decide +kernel)
  exact hsilent q (by rw [List.length_set]; exact hq)

end Chickadee
