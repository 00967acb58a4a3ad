import Chickadee.Impl.Concrete
import Chickadee.Impl.Run
import Chickadee.Lemmas.Log

/-!
This module contains what is read from the files that `flush_to` writes: the entries of the memtable,
and after them the records that decode from the footer of the file. `read_next_entry` goes on when
the cursor stands exactly on the footer.
-/

namespace Chickadee

open Faulty Faulty.Io Resync

variable {σ : Type} (c : Crates)

-- `contents` is the file that a `flush_to` of the memtable has written
structure WrittenBy (memtable : MemTable) (contents : Contents) : Prop where
  stored : memtable.Stored c
  nonempty : memtable.values ≠ []
  small : memtable.len * 10 < 2 ^ 32
  written : ∃ m m' : Machine Call Disk MemTable, m.self = memtable
    ∧ (MemTable.flushTo c).run m = .ok () m'
    ∧ m'.disk.get? (.sstable (nextName m.disk)) = some contents

def readEntries : Nat → Os SSTable (List (Option Entry))
  | 0 => return []
  | n + 1 => do
    let entry ← SSTable.readNextEntry c
    let rest ← readEntries n
    return entry :: rest

def readTable (name : String) (n : Nat) : Os σ (Option (List (Option Entry))) := do
  match ← SSTable.fromPath c name with
  | none => return none
  | some sstable =>
    let (entries, _) ← on sstable (readEntries c n)
    return some entries

-- the filter of the memtable and its bit count, as `flush_to` appends them to the records
def footerOf (memtable : MemTable) : Bytes :=
  (BloomFilter.ofKeys c (memtable.values.map Entry.key)).footer

variable {c}

theorem isEmpty_eq_false {memtable : MemTable} (h : memtable.values ≠ []) :
    memtable.isEmpty = false := by
  rw [Bool.eq_false_iff]
  intro hempty
  rcases List.exists_mem_of_ne_nil _ h with ⟨entry, hentry⟩
  rw [MemTable.mem_values_iff, MemTable.get_of_isEmpty hempty] at hentry
  contradiction

theorem WrittenBy.output {memtable : MemTable} {contents : Contents}
    (h : WrittenBy c memtable contents) : Output c memtable.values contents := by
  rcases h.written with ⟨m, m', hself, hrun, hget⟩
  have hwp : wp (fun _ => True) (MemTable.flushTo c) (fun _ m' =>
      ∀ contents, m'.disk.get? (.sstable (nextName m.disk)) = some contents →
        contents.bytes = image c memtable.values) (fun _ _ => True) m := by
    apply wp_flushTo (by rw [hself]; exact h.stored.serializable)
    . intro hempty
      rw [hself, isEmpty_eq_false h.nonempty] at hempty
      contradiction
    . intro m' new _ _ hnew _ hdisk _ contents hcontents
      rw [hdisk, Disk.get?_write, if_pos rfl] at hcontents
      cases hcontents
      rw [hnew, hself]
    . intros
      trivial
  refine ⟨h.stored.tableEntries, ?_, hwp.of_ok hrun ⟨trivial, fun _ _ => trivial⟩ contents hget⟩
  rw [MemTable.length_values]
  exact h.small

theorem answers_readEntries {d : Disk} {contents : Contents} {path : Path}
    (filter : BloomFilter) (bound : Nat) (hread : d.read path = contents) (n pos : Nat) :
    ∃ pos', Answers (readEntries c n) d ⟨filter, bound, ⟨path, pos⟩⟩
      (((recordsFrom c contents bound pos).map some ++ List.replicate n none).take n)
      ⟨filter, bound, ⟨path, pos'⟩⟩ := by
  induction n generalizing pos with
  | zero => exact ⟨pos, Answers.pure _⟩
  | succ n ih =>
    have hnext := answers_readNextEntry (c := c) filter bound pos hread
    have htail := recordsFrom_nextPos (c := c) contents bound pos
    rcases ih (nextPos c contents bound pos) with ⟨pos', hrest⟩
    rw [htail] at hrest
    refine ⟨pos', ?_⟩
    unfold readEntries
    apply Answers.bind hnext
    apply Answers.bind hrest
    have htake : ∀ rs : List (Option Entry), (rs ++ List.replicate (n + 1) none).take n
        = (rs ++ List.replicate n none).take n := by
      intro rs
      rw [List.replicate_succ', ← List.append_assoc, List.take_append_of_le_length (by simp)]
    cases recordsFrom c contents bound pos with
    | nil =>
      have hnone : (List.replicate n (none : Option Entry)).take n = List.replicate n none := by
        rw [List.take_replicate, Nat.min_self]
      simp only [List.head?_nil, List.tail_nil, List.map_nil, List.nil_append, hnone,
        List.replicate_succ, List.take_succ_cons]
      apply Answers.pure
    | cons entry rest =>
      simp only [List.head?_cons, List.tail_cons, List.map_cons, List.cons_append,
        List.take_succ_cons, htake]
      apply Answers.pure

theorem recordsFrom_image {entries : List Entry} {contents : Contents}
    (hout : Output c entries contents) :
    recordsFrom c contents (encodedAll c.toCodec entries).length 0
      = entries ++ recordsFrom c contents (encodedAll c.toCodec entries).length
          (encodedAll c.toCodec entries).length := by
  have hdrain := drain_encodedAll [] (BloomFilter.ofKeys c (entries.map Entry.key)).footer
    (encodedAll c.toCodec entries).length hout.tableEntries.writable (by simp)
  rw [List.nil_append, ← image, ← hout.bytes_eq, List.length_nil, Nat.zero_add] at hdrain
  unfold recordsFrom
  rw [hdrain, List.map_append, map_snd_placed]

theorem recordsFrom_footer {entries : List Entry} {contents : Contents}
    (hout : Output c entries contents) :
    recordsFrom c contents (encodedAll c.toCodec entries).length
        (encodedAll c.toCodec entries).length = []
      ↔
    ∀ q < (BloomFilter.ofKeys c (entries.map Entry.key)).footer.length,
      parseRecord c.toCodec ((BloomFilter.ofKeys c (entries.map Entry.key)).footer.drop q)
        = none := by
  have hdrop : contents.bytes.drop (encodedAll c.toCodec entries).length
      = (BloomFilter.ofKeys c (entries.map Entry.key)).footer := by
    rw [hout.bytes_eq, image, List.drop_left]
  rw [← scan_eq_none_iff (parseRecord c.toCodec), ← hdrop]
  unfold recordsFrom
  rw [List.map_eq_nil_iff]
  constructor
  . intro hnil
    by_contra hscan
    rcases Option.ne_none_iff_exists'.mp hscan with ⟨⟨p, value, len⟩, hsome⟩
    rw [drain_of_scan_some (recordParser c.toCodec) (Nat.le_refl _) hsome] at hnil
    contradiction
  . exact drain_of_scan_none (recordParser c.toCodec)

theorem reduceOption_take {entries : List Entry} {n : Nat} (h : entries.length ≤ n) :
    ((entries.map some ++ List.replicate n none).take n).reduceOption = entries := by
  rw [List.take_append, List.take_of_length_le (by simpa using h), List.take_replicate,
    List.reduceOption_append, List.reduceOption_replicate_none, List.append_nil, List.reduceOption,
    List.filterMap_map]
  exact List.filterMap_some

/--
The file opens, and after the entries of the memtable nothing is read from it, if and only if nothing
decodes from the bytes of its footer.
-/
theorem readTable_flushTo {memtable : MemTable} {contents : Contents} {m : Machine Call Disk σ}
    {name : String} (h : WrittenBy c memtable contents) (hm : m.Faultless)
    (hname : m.disk.sstables.get? name = some contents) :
    (∀ n, ∃ m', (readTable c name n).run m
        = .ok (some ((memtable.values.map some ++ List.replicate n none).take n)) m')
      ↔
    ∀ q < (footerOf c memtable).length,
      parseRecord c.toCodec ((footerOf c memtable).drop q) = none := by
  have hout := h.output
  have hopen := openTable_image hout.tableEntries h.nonempty hout.small hout.bytes_eq
  have hread : m.disk.read (.sstable name) = contents := by
    change (m.disk.sstables.get? name).getD .empty = contents
    rw [hname]
    rfl
  -- what is read in any case
  have hrun : ∀ n, ∃ m', (readTable c name n).run m
      = .ok (some (((recordsFrom c contents (encodedAll c.toCodec memtable.values).length 0).map some
        ++ List.replicate n none).take n)) m' := by
    intro n
    rcases answers_readEntries (c := c) (.ofKeys c (memtable.values.map Entry.key))
      (encodedAll c.toCodec memtable.values).length hread n 0 with ⟨pos, hentries⟩
    have hfrom := answers_fromPath (c := c) (s := m.self) hname
    rw [hopen] at hfrom
    have hanswers : Answers (readTable c name n) m.disk m.self (some
        (((recordsFrom c contents (encodedAll c.toCodec memtable.values).length 0).map some
          ++ List.replicate n none).take n)) m.self := by
      unfold readTable
      apply Answers.bind hfrom
      exact Answers.bind (Answers.on hentries) (Answers.pure _)
    rcases hanswers.run hm rfl rfl with ⟨m', hrun, -⟩
    exact ⟨m', hrun⟩
  rw [footerOf, ← recordsFrom_footer hout]
  have himage := recordsFrom_image hout
  constructor
  . intro hall
    generalize recordsFrom c contents (encodedAll c.toCodec memtable.values).length
      (encodedAll c.toCodec memtable.values).length = more at himage ⊢
    rw [himage] at hrun
    rcases hrun (memtable.values.length + more.length) with ⟨m1, hrun1⟩
    rcases hall (memtable.values.length + more.length) with ⟨m2, hrun2⟩
    rw [hrun1, Result.ok.injEq, Option.some.injEq] at hrun2
    have heq := congrArg List.reduceOption hrun2.1
    rw [reduceOption_take (by rw [List.length_append]), reduceOption_take (Nat.le_add_right _ _)] at heq
    exact List.append_right_eq_self.mp heq
  . intro hnil n
    rcases hrun n with ⟨m', hrun⟩
    rw [himage, hnil, List.append_nil] at hrun
    exact ⟨m', hrun⟩

def recordBits : List UInt64 :=
  [0, 1, 6, 10, 14, 25, 27, 31, 36, 37, 38, 45, 46, 47, 50, 51, 80]

def recordHash (key : Bytes) (seed : UInt64) : UInt64 :=
  if seed = 0 then recordBits.getD ((key.headD 0).toNat - 97) 0 else 0

def recordCrates : Crates :=
  { Concrete.crates with xxh3 := recordHash }

def memtableOf (c : Crates) (entries : List Entry) : MemTable :=
  entries.foldl (MemTable.processed c) .new

def tombstones (keys : List String) : MemTable :=
  memtableOf recordCrates (keys.map Entry.delete)

def recordKeys : List String :=
  ["a", "b", "c", "d", "e", "f", "g", "h", "i", "j", "k", "l", "m", "n", "o", "p", "q", "r"]

def flushedMachine (c : Crates) (disk : Disk) (memtable : MemTable) : Machine Call Disk MemTable :=
  ((MemTable.flushTo c).run (.boot disk memtable)).machine

def flushedContents (c : Crates) (disk : Disk) (memtable : MemTable) : Contents :=
  (flushedMachine c disk memtable).disk.read (.sstable (nextName disk))

def writtenCheck (c : Crates) (disk : Disk) (entries : List Entry) : Bool :=
  !(memtableOf c entries).values.isEmpty && decide ((memtableOf c entries).len * 10 < 2 ^ 32)
    && entries.all (writableCheck c.toCodec)
    && ((MemTable.flushTo c).run (.boot disk (memtableOf c entries))).value?.isSome
    && ((flushedMachine c disk (memtableOf c entries)).disk.get?
      (.sstable (nextName disk))).isSome

section Flushed

variable {disk : Disk} {entries : List Entry}

theorem flushedMachine_faultless (c : Crates) (disk : Disk) (memtable : MemTable) (self : σ) :
    ((flushedMachine c disk memtable).withSelf self).Faultless :=
  ((MemTable.flushTo c).extends_run _).faultless.mpr (Machine.boot_faultless _ _)

theorem get?_flushedContents (h : writtenCheck c disk entries = true) (self : σ) :
    ((flushedMachine c disk (memtableOf c entries)).withSelf self).disk.sstables.get? (nextName disk)
      = some (flushedContents c disk (memtableOf c entries)) := by
  unfold writtenCheck at h
  rw [Bool.and_eq_true] at h
  rcases Option.isSome_iff_exists.mp h.2 with ⟨contents, hcontents⟩
  unfold flushedContents Disk.read
  rw [hcontents, Option.getD_some]
  exact hcontents

theorem WrittenBy.of_check (h : writtenCheck c disk entries = true) :
    WrittenBy c (memtableOf c entries) (flushedContents c disk (memtableOf c entries)) := by
  have hget := get?_flushedContents h ()
  simp only [writtenCheck, Bool.and_eq_true, Bool.not_eq_true', decide_eq_true_eq, List.all_eq_true,
    List.isEmpty_eq_false_iff] at h
  rcases h with ⟨⟨⟨⟨hne, hsmall⟩, hwritable⟩, hrun⟩, -⟩
  have hstored : (memtableOf c entries).Stored c := by
    apply stored_foldl_processed _ MemTable.stored_new
    intro entry hentry
    exact Writable.of_check _ (hwritable entry hentry)
  rcases Option.isSome_iff_exists.mp hrun with ⟨_, hvalue⟩
  exact ⟨hstored, hne, hsmall, .boot disk (memtableOf c entries),
    flushedMachine c disk (memtableOf c entries), rfl, run_eq_of_value hvalue, hget⟩

end Flushed

theorem footer_read_as_record :
    WrittenBy recordCrates (tombstones recordKeys)
        (flushedContents recordCrates (Disk.empty Nat.succ) (tombstones recordKeys))
      ∧ ((readTable recordCrates (nextName (Disk.empty Nat.succ)) 20).run
          ((flushedMachine recordCrates (Disk.empty Nat.succ) (tombstones recordKeys)).withSelf
            ())).value?
        = some (some (recordKeys.map (fun key => some (.delete key))
          ++ [some (.delete ""), none])) := by
  constructor
  . exact WrittenBy.of_check (by decide +kernel)
  . decide +kernel

def mixedEntries : List Entry :=
  [.set "a" "b", .delete "c", .set "e" "f", .set "a" "d", .delete "x", .set "y" "z"]

/--
With the hash as it is, nothing is read behind the five entries of the memtable.
-/
theorem readTable_flushTo_mixed :
    (memtableOf Concrete.crates mixedEntries).values
        = [.set "a" "d", .delete "c", .set "e" "f", .delete "x", .set "y" "z"]
      ∧ ∀ n, ∃ m', (readTable Concrete.crates (nextName (Disk.empty Nat.succ)) n).run
          ((flushedMachine Concrete.crates (Disk.empty Nat.succ)
            (memtableOf Concrete.crates mixedEntries)).withSelf ())
        = .ok (some (((memtableOf Concrete.crates mixedEntries).values.map some
          ++ List.replicate n none).take n)) m' := by
  have hcheck : writtenCheck Concrete.crates (Disk.empty Nat.succ) mixedEntries = true := by
    decide +kernel
  have hfooter : ∀ q < (footerOf Concrete.crates (memtableOf Concrete.crates mixedEntries)).length,
      parseRecord Concrete.crates.toCodec
        ((footerOf Concrete.crates (memtableOf Concrete.crates mixedEntries)).drop q) = none := by
    decide +kernel
  constructor
  . decide +kernel
  . have hread := readTable_flushTo
      (m := (flushedMachine Concrete.crates (Disk.empty Nat.succ)
        (memtableOf Concrete.crates mixedEntries)).withSelf ())
      (WrittenBy.of_check hcheck) (flushedMachine_faultless _ _ _ _) (get?_flushedContents hcheck _)
    exact hread.mpr hfooter

end Chickadee
