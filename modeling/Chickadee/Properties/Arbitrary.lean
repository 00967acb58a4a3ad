import Chickadee.Lemmas.Concrete
import Chickadee.Lemmas.Run

/-!
This module contains that no bytes in the files make the store fail: whatever stands in the WAL and in
the directory, a log is opened, keys are looked up and the files are compacted without an error.
-/

namespace Chickadee

open Faulty Faulty.Io Layers LittleEndian Resync KWay

variable {σ : Type} {c : Crates}

def Reserializable (c : Crates) : Prop :=
  ∀ bytes entry, bytes.length < 2 ^ 32 → c.deserialize bytes = some entry →
    Serializable c.toCodec entry

-- the readings to come differ from each other, and no file has been named by one of them
def FreshReadings (d : Disk) : Prop :=
  ∀ i, d.ticks ≤ i → MemTable.fileName (d.clock i) ∉ d.sstables.keys
    ∧ ∀ j, d.ticks ≤ j → j < i → d.clock j ≠ d.clock i

theorem length_declaredPayload_lt (bytes : Bytes) : (declaredPayload bytes).length < 2 ^ 32 := by
  have hlen := ofLe_lt ((bytes.drop 6).take 4)
  have htake : ((bytes.drop 6).take 4).length ≤ 4 := List.length_take_le _ _
  have hpow : 256 ^ ((bytes.drop 6).take 4).length ≤ 256 ^ 4 :=
    Nat.pow_le_pow_right (by decide) htake
  unfold declaredPayload
  exact (List.length_take_le _ _).trans_lt (by omega)

theorem exists_payload {contents : Contents} {bound pos : Nat} {entry : Entry}
    (hentry : entry ∈ recordsFrom c contents bound pos) :
    ∃ payload : Bytes, payload.length < 2 ^ 32 ∧ c.deserialize payload = some entry := by
  unfold recordsFrom at hentry
  rw [List.mem_map] at hentry
  rcases hentry with ⟨⟨p, e⟩, hmem, rfl⟩
  rcases parse_of_mem_drain _ hmem with ⟨-, n, hparse⟩
  exact ⟨_, length_declaredPayload_lt _, (of_parseRecord hparse).2.2.2.2.2⟩

theorem exists_payload_of_mem_streamsOf {d : Disk} {s : List Entry} (hs : s ∈ streamsOf c d)
    {entry : Entry} (hentry : entry ∈ s) :
    ∃ payload : Bytes, payload.length < 2 ^ 32 ∧ c.deserialize payload = some entry := by
  rcases mem_tableStreams hs with ⟨p, -, rfl⟩
  unfold fileScan at hentry
  split at hentry
  . contradiction
  . exact exists_payload hentry

theorem serializable_of_mem_recordsFrom (h : Reserializable c) {contents : Contents}
    {bound pos : Nat} : ∀ entry ∈ recordsFrom c contents bound pos,
      Serializable c.toCodec entry := by
  intro entry hentry
  rcases exists_payload hentry with ⟨payload, hlt, hpayload⟩
  exact h payload entry hlt hpayload

theorem Added.clock_eq {tables : List (List Entry)} {d d' : Disk} (h : Added c d tables d') :
    d'.clock = d.clock ∧ d.ticks ≤ d'.ticks := by
  induction h with
  | refl => exact ⟨rfl, Nat.le_refl _⟩
  | flush _ _ _ _ _ _ ih => exact ⟨ih.1, Nat.le_succ_of_le ih.2⟩

theorem Added.mem_keys {tables : List (List Entry)} {d d' : Disk} (h : Added c d tables d') :
    ∀ name ∈ d'.sstables.keys, name ∈ d.sstables.keys
      ∨ ∃ i, d.ticks ≤ i ∧ i < d'.ticks ∧ name = MemTable.fileName (d.clock i) := by
  induction h with
  | refl =>
    intro name hname
    exact Or.inl hname
  | @flush tables d1 h memtable new _ _ _ _ _ ih =>
    intro name hname
    cases (SortedMap.mem_keys_insert _ _ _ _).mp hname with
    | inl heq =>
      refine Or.inr ⟨d1.ticks, h.clock_eq.2, Nat.lt_succ_self _, ?_⟩
      rw [heq, nextName, h.clock_eq.1]
    | inr hmem =>
      cases ih name hmem with
      | inl hold => exact Or.inl hold
      | inr hnew =>
        rcases hnew with ⟨i, hle, hlt, heq⟩
        exact Or.inr ⟨i, hle, Nat.lt_succ_of_lt hlt, heq⟩

theorem namesFresh_of_freshReadings {d : Disk} (h : FreshReadings d) (T : Disk → Prop) :
    NamesFresh c T d := by
  intro tables d' new hadded _ hmem
  have hclock := hadded.clock_eq
  have hfresh := h d'.ticks hclock.2
  unfold nextName at hmem
  rw [hclock.1] at hmem
  cases hadded.mem_keys _ hmem with
  | inl hold => exact hfresh.1 hold
  | inr hnew =>
    rcases hnew with ⟨i, hle, hlt, heq⟩
    exact hfresh.2 i hle hlt (MemTable.fileName_injective heq).symm

-- the files of the directory are the images of `outs`, each of them under its name
def Holds (c : Crates) (outs : List (String × List Entry)) (d : Disk) : Prop :=
  (outs.map Prod.fst).Nodup ∧ ∀ name contents, d.sstables.get? name = some contents ↔
    ∃ table, (name, table) ∈ outs ∧ contents.bytes = image c table

theorem get?_removeAll (names : List String) (d : Disk) (name : String) :
    (removeAll names d).sstables.get? name
      = if name ∈ names then none else d.sstables.get? name := by
  induction names generalizing d with
  | nil => rfl
  | cons name' names ih =>
    have hremove : (d.remove name').sstables.get? name
        = if name = name' then none else d.sstables.get? name := SortedMap.get?_erase _ _ _
    change (removeAll names (d.remove name')).sstables.get? name = _
    rw [ih, hremove]
    by_cases heq : name = name' <;> by_cases hmem : name ∈ names <;> simp [heq, hmem]

theorem Added.outs {tables : List (List Entry)} {d d' : Disk} (h : Added c d tables d') :
    ∃ outs : List (String × List Entry), outs.map Prod.snd = tables ∧ (outs.map Prod.fst).Nodup
      ∧ (∀ name ∈ outs.map Prod.fst, name ∉ d.sstables.keys ∧ name ∈ d'.sstables.keys)
      ∧ ∀ name contents, name ∉ d.sstables.keys → (d'.sstables.get? name = some contents ↔
        ∃ table, (name, table) ∈ outs ∧ contents.bytes = image c table) := by
  induction h with
  | refl =>
    refine ⟨[], rfl, List.nodup_nil, by simp, ?_⟩
    intro name contents hname
    rw [(SortedMap.get?_eq_none_iff _ _).mpr hname]
    simp
  | @flush tables d1 h memtable new _ _ _ hfresh hnew ih =>
    rcases ih with ⟨outs, rfl, hnodup, hnames, hget⟩
    have hnext : nextName d1 ∉ outs.map Prod.fst := fun hmem => hfresh (hnames _ hmem).2
    refine ⟨(nextName d1, memtable.values) :: outs, rfl, ?_, ?_, ?_⟩
    . rw [List.map_cons, List.nodup_cons]
      exact ⟨hnext, hnodup⟩
    . intro name hname
      rw [List.map_cons, List.mem_cons] at hname
      cases hname with
      | inl heq =>
        rw [heq]
        refine ⟨?_, (SortedMap.mem_keys_insert _ _ _ _).mpr (Or.inl rfl)⟩
        exact fun hmem => hfresh (h.unchanged.mem_keys hmem)
      | inr hmem =>
        rcases hnames name hmem with ⟨hfreshName, hkept⟩
        exact ⟨hfreshName, (SortedMap.mem_keys_insert _ _ _ _).mpr (Or.inr hkept)⟩
    . intro name contents hname
      have hinsert : (d1.tick.write (.sstable (nextName d1)) new).sstables.get? name
          = if name = nextName d1 then some new else d1.sstables.get? name :=
        SortedMap.get?_insert _ _ _ _
      rw [hinsert]
      by_cases heq : name = nextName d1
      . rw [if_pos heq]
        constructor
        . intro hsome
          cases hsome
          exact ⟨memtable.values, by rw [heq]; exact List.mem_cons_self, hnew⟩
        . rintro ⟨table, hmem, hbytes⟩
          cases List.mem_cons.mp hmem with
          | inl hhead =>
            cases hhead
            rw [← hnew] at hbytes
            cases contents
            cases new
            cases hbytes
            rfl
          | inr htail =>
            apply absurd _ hnext
            rw [← heq]
            exact List.mem_map_of_mem (f := Prod.fst) htail
      . rw [if_neg heq, hget name contents hname]
        constructor
        . rintro ⟨table, hmem, hbytes⟩
          exact ⟨table, List.mem_cons_of_mem _ hmem, hbytes⟩
        . rintro ⟨table, hmem, hbytes⟩
          refine ⟨table, ?_, hbytes⟩
          cases List.mem_cons.mp hmem with
          | inl hhead =>
            rw [Prod.mk.injEq] at hhead
            exact absurd hhead.1 heq
          | inr htail => exact htail

theorem MergedInto.holds {tables : List (List Entry)} {d d' : Disk} (h : MergedInto c tables d d') :
    ∃ outs, Holds c outs (removeAll d.sstables.keys.reverse d')
      ∧ ((outs.flatMap Prod.snd).map Entry.key).Nodup := by
  rcases h with ⟨streams, seenKeys, hrolling, -⟩
  rcases hrolling.merge with ⟨out, hmerge, hchunks⟩
  rcases hrolling.added.outs with ⟨outs, rfl, hnodup, hnames, hget⟩
  refine ⟨outs, ⟨hnodup, ?_⟩, ?_⟩
  . intro name contents
    rw [get?_removeAll]
    by_cases hname : name ∈ d.sstables.keys
    . rw [if_pos (List.mem_reverse.mpr hname)]
      constructor
      . intro hnone
        contradiction
      . rintro ⟨table, hmem, -⟩
        exact absurd hname (hnames name (List.mem_map_of_mem (f := Prod.fst) hmem)).1
    . rw [if_neg (fun hmem => hname (List.mem_reverse.mp hmem)), hget name contents hname]
  . have hperm := hchunks.perm
    have hnil : MemTable.new.values = [] := rfl
    rw [hnil, List.append_nil] at hperm
    have hflat := ((List.reverse_perm (outs.map Prod.snd)).flatten).symm.trans hperm
    rw [List.flatMap_def]
    exact (hflat.map Entry.key).nodup_iff.mpr hmerge.nodup

theorem MergedInto.mem_files {tables : List (List Entry)} {d d' : Disk}
    (h : MergedInto c tables d d') :
    (∀ contents ∈ files (removeAll d.sstables.keys.reverse d'),
        ∃ table ∈ tables, contents.bytes = image c table)
      ∧ ∀ table ∈ tables, ∃ contents ∈ files (removeAll d.sstables.keys.reverse d'),
        contents.bytes = image c table := by
  rcases h with ⟨streams, seenKeys, hrolling, -⟩
  rcases hrolling.added.outs with ⟨outs, rfl, hnodup, hnames, hget⟩
  simp only [mem_files_iff, get?_removeAll, List.mem_reverse]
  constructor
  . rintro contents ⟨name, hname⟩
    split at hname
    . contradiction
    . next hold =>
      rcases (hget name contents hold).mp hname with ⟨table, hmem, hbytes⟩
      exact ⟨table, List.mem_map_of_mem (f := Prod.snd) hmem, hbytes⟩
  . intro table htable
    rw [List.mem_map] at htable
    rcases htable with ⟨⟨name, table⟩, hmem, rfl⟩
    have hname := hnames name (List.mem_map_of_mem (f := Prod.fst) hmem)
    cases hcontents : d'.sstables.get? name with
    | none => exact absurd hname.2 ((SortedMap.get?_eq_none_iff _ _).mp hcontents)
    | some contents =>
      refine ⟨contents, ⟨name, by rw [if_neg hname.1, hcontents]⟩, ?_⟩
      rcases (hget name contents hname.1).mp hcontents with ⟨table', hmem', hbytes⟩
      have heq := List.inj_on_of_nodup_map hnodup hmem hmem' rfl
      cases heq
      exact hbytes

theorem lt_of_readNext_some {contents : Contents} {pos : Nat} {entry : Entry}
    (h : (readNext c.toCodec contents pos).1 = some entry) :
    pos < (readNext c.toCodec contents pos).2 := by
  unfold readNext at h ⊢
  split at h
  . contradiction
  . next hlt =>
    split at h
    . contradiction
    . next p value len hscan =>
      have hparse := ((scan_eq_some_iff _ _ _ _).mp hscan).2.1
      have hpos := (recordParser c.toCodec).pos_of_parse hparse
      rw [if_neg hlt]
      dsimp only
      omega

theorem run_mergeRound {m : Machine Call Disk σ} (hm : m.Faultless) {cursors : List Cursor}
    {streams : List (List Entry)} {memtable : MemTable} {seenKeys : List String} {min : String}
    (hcursors : List.Forall₂ (CursorOn c m.disk) cursors streams)
    (hentries : ∀ s ∈ streams, ∀ entry ∈ s, Serializable c.toCodec entry)
    (hholds : memtable.Holds (Serializable c.toCodec)) (hmin : minKey cursors = some min) :
    ∃ cursors' memtable' seenKeys' streams' m',
      (mergeRound c min cursors memtable seenKeys).run m
          = .ok (cursors', memtable', seenKeys') m'
        ∧ List.Forall₂ (CursorOn c m.disk) cursors' streams'
        ∧ (streams'.map List.length).sum < (streams.map List.length).sum := by
  rw [minKey_eq hcursors] at hmin
  rcases leastKey_eq_some hmin with ⟨-, entry, hwinner⟩
  have hentry : Serializable c.toCodec entry := by
    rcases List.exists_of_findSome?_eq_some hwinner with ⟨s, hs, hhead⟩
    rw [Option.filter_eq_some_iff] at hhead
    exact hentries s hs entry (List.mem_of_head? hhead.1)
  rcases answers_mergeRound m.self (fun _ _ => rfl) hcursors seenKeys hwinner hholds
    hentry with ⟨cursors', hanswers, hcursors'⟩
  rcases hanswers.run hm rfl rfl with ⟨m', hrun, -⟩
  exact ⟨cursors', _, _, _, m', hrun, hcursors', sum_advance_lt hwinner⟩

/--
A compaction comes to its end, and no key is in two of its files, nor twice in one.
-/
theorem run_compact_arbitrary (hcodec : Reserializable c) {m : Store} (hm : m.Faultless)
    (hfresh : FreshReadings m.disk)
    (hspace : ∀ m', (compact c).run m ≠ .error (.raised .fileTooLarge) m') :
    ∃ m' outs, (compact c).run m = .ok () m' ∧ Holds c outs m'.disk
      ∧ ((outs.flatMap Prod.snd).map Entry.key).Nodup := by
  have hwp : wp (fun _ => True) (compact c) (fun _ m' => ∃ outs, Holds c outs m'.disk
      ∧ ((outs.flatMap Prod.snd).map Entry.key).Nodup)
      (fun e _ => e = .fault ∨ e = .raised .fileTooLarge) m := by
    apply wp_compact_of_serializable _ (namesFresh_of_freshReadings hfresh _)
    . intro m' d' tables _ hmerged hdisk
      rw [hdisk]
      exact hmerged.holds
    . intro e m' d' tables memtable _ _ _ he
      exact he
    . intros
      exact Or.inl rfl
    . intro s hs entry hentry
      rcases exists_payload_of_mem_streamsOf hs hentry with ⟨payload, hlt, hpayload⟩
      exact hcodec payload entry hlt hpayload
  rcases exists_ok_of_space hwp hm ⟨trivial, fun _ _ => trivial⟩ hspace with
    ⟨_, m', hrun, outs, houts, hnodup⟩
  exact ⟨m', outs, hrun, houts, hnodup⟩

/--
Whatever the bytes in the files are, a log is opened, `get` answers, a compaction comes to its end, and
no key is in two of its files, nor twice in one.
-/
theorem run_arbitrary (hcodec : Reserializable c) {m : Store} (hm : m.Faultless) :
    (∀ truncate, ∃ log m', (Log.new c truncate).run m = .ok log m')
      ∧ (∀ key, ∃ entry m', (Log.get c key).run m = .ok entry m')
      ∧ (∀ file : File, ∃ entry m', (headerReadNext c.toCodec).run (m.withSelf file)
          = .ok entry m' ∧ (entry.isSome → file.pos < m'.self.pos))
      ∧ (∀ name ∈ m.disk.sstables.keys, ∃ table m', (SSTable.fromPath c name).run m
          = .ok table m')
      ∧ (∀ cursors streams memtable seenKeys min,
          List.Forall₂ (CursorOn c m.disk) cursors streams →
          (∀ s ∈ streams, ∀ entry ∈ s, Serializable c.toCodec entry) →
          memtable.Holds (Serializable c.toCodec) → minKey cursors = some min →
          ∃ cursors' memtable' seenKeys' streams' m',
            (mergeRound c min cursors memtable seenKeys).run m
                = .ok (cursors', memtable', seenKeys') m'
              ∧ List.Forall₂ (CursorOn c m.disk) cursors' streams'
              ∧ (streams'.map List.length).sum < (streams.map List.length).sum)
      ∧ (FreshReadings m.disk → (∀ m', (compact c).run m ≠ .error (.raised .fileTooLarge) m') →
          ∃ m' outs, (compact c).run m = .ok () m' ∧ Holds c outs m'.disk
            ∧ ((outs.flatMap Prod.snd).map Entry.key).Nodup) := by
  refine ⟨?_, ?_, ?_, ?_, ?_, ?_⟩
  . intro truncate
    rcases run_new_truncate (c := c) hm truncate rfl (serializable_of_mem_recordsFrom hcodec)
      with ⟨log, m', hrun, -⟩
    exact ⟨log, m', hrun⟩
  . intro key
    rcases (answers_get (c := c) m.disk m.self key).run hm rfl rfl with ⟨m', hrun, -⟩
    exact ⟨_, m', hrun⟩
  . intro file
    have hread := Answers.of_reading (d := m.disk)
      (reading_headerReadNext (c := c.toCodec) (m.disk.read file.path) file.pos)
      (rfl : m.disk.read file.path = _)
    rcases hread.run (m := m.withSelf file) hm rfl rfl with ⟨m', hrun, -, hself⟩
    refine ⟨_, m', hrun, ?_⟩
    intro hsome
    rcases Option.isSome_iff_exists.mp hsome with ⟨entry, hentry⟩
    rw [hself]
    exact lt_of_readNext_some hentry
  . intro name hname
    cases hget : m.disk.sstables.get? name with
    | none => exact absurd hname ((SortedMap.get?_eq_none_iff _ _).mp hget)
    | some contents =>
      rcases (answers_fromPath (c := c) (s := m.self) hget).run hm rfl rfl with ⟨m', hrun, -⟩
      exact ⟨_, m', hrun⟩
  . intro cursors streams memtable seenKeys min hcursors hentries hholds hmin
    exact run_mergeRound hm hcursors hentries hholds hmin
  . intro hfresh hspace
    exact run_compact_arbitrary hcodec hm hfresh hspace

theorem length_readStr {bytes rest : Bytes} {s : String}
    (h : Concrete.readStr bytes = some (s, rest)) :
    8 + (bytesOf s).length + rest.length = bytes.length := by
  unfold Concrete.readStr at h
  dsimp only at h
  split at h
  . contradiction
  . next hlong =>
    rw [not_or, Nat.not_lt, Nat.not_lt, List.length_drop] at hlong
    rw [Option.map_eq_some_iff] at h
    rcases h with ⟨s', hs', heq⟩
    cases heq
    have hbytes : bytesOf s = (bytes.drop 8).take (ofLe (bytes.take 8)) := by
      unfold String.fromUTF8? at hs'
      split at hs'
      . cases hs'
        rfl
      . contradiction
    rw [hbytes, List.length_take, List.length_drop, List.length_drop, List.length_drop]
    omega

theorem reserializable_concrete : Reserializable Concrete.crates := by
  intro bytes entry hlt hentry
  change Concrete.deserialize bytes = some entry at hentry
  unfold Concrete.deserialize at hentry
  split at hentry
  . contradiction
  . next hlong =>
    split at hentry
    . simp only [Option.bind_eq_bind, Option.bind_eq_some_iff, Option.pure_def,
        Option.some.injEq] at hentry
      rcases hentry with ⟨⟨key, rest⟩, hkey, ⟨value, rest'⟩, hvalue, rfl⟩
      have hlen := length_readStr hkey
      have hlen' := length_readStr hvalue
      refine ⟨_, rfl, ?_⟩
      rw [List.length_drop] at hlen
      rw [List.length_append, List.length_append, length_toLe, Concrete.length_writeStr,
        Concrete.length_writeStr]
      dsimp only at hlen' ⊢
      omega
    . simp only [Option.bind_eq_bind, Option.bind_eq_some_iff, Option.pure_def,
        Option.some.injEq] at hentry
      rcases hentry with ⟨⟨key, rest⟩, hkey, rfl⟩
      have hlen := length_readStr hkey
      refine ⟨_, rfl, ?_⟩
      rw [List.length_drop] at hlen
      rw [List.length_append, length_toLe, Concrete.length_writeStr]
      dsimp only
      omega
    . contradiction

-- records out of order, a key that is there twice, and a file that is no table
def garbageDisk : Disk :=
  { Disk.empty Nat.succ with
    wal := .clip [67, 68, 1, 2, 3, 4, 255, 255, 255, 255, 0, 0]
    sstables := (SortedMap.empty.insert "junk" (.clip [1, 2, 3, 4, 5])).insert "pairs"
      (.clip (encodedAll Concrete.crates.toCodec [.set "x" "y", .set "a" "b", .set "x" "z"]
        ++ [0, 0, 0, 0])) }

def garbageStore : Store :=
  .boot garbageDisk .closed

theorem run_arbitrary_garbageStore :
    (∃ log m', (Log.new Concrete.crates false).run garbageStore = .ok log m')
      ∧ (∃ entry m', (Log.get Concrete.crates "x").run garbageStore = .ok entry m')
      ∧ ∃ m' outs, (compact Concrete.crates).run garbageStore = .ok () m'
        ∧ Holds Concrete.crates outs m'.disk
        ∧ ((outs.flatMap Prod.snd).map Entry.key).Nodup := by
  rcases run_arbitrary reserializable_concrete (m := garbageStore) (Machine.boot_faultless _ _)
    with ⟨hnew, hget, -, -, -, hcompact⟩
  refine ⟨hnew false, hget "x", ?_⟩
  apply hcompact
  . intro i _
    constructor
    . -- the names of the files do not end like those of the tables
      have hkeys : garbageStore.disk.sstables.keys = ["junk", "pairs"] := by decide +kernel
      rw [hkeys]
      intro hmem
      have hlast : ∀ name ∈ ["junk", "pairs"], name.toList.getLast? ≠ some 't' := by decide
      apply hlast _ hmem
      rw [MemTable.toList_fileName, List.getLast?_append]
      rfl
    . intro j _ hlt heq
      exact absurd (Nat.succ.inj heq) (Nat.ne_of_lt hlt)
  . intro m' hm'
    have hvalue : ((compact Concrete.crates).run garbageStore).value? = some () := by
      decide +kernel
    rw [hm'] at hvalue
    clear hm'
    contradiction

end Chickadee
