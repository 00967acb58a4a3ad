import Chickadee.Properties.Arbitrary
import Chickadee.Properties.Damage

/-!
This module contains what a compaction keeps of files whose footers have been altered. The footer says
where the records end, so an altered one hides records from the merge, and the file with them is deleted
all the same.
-/

namespace Chickadee

open Faulty Faulty.Io Layers LittleEndian Resync KWay

variable {c : Crates}

def Rewritable (c : Crates) : Prop :=
  ∀ bytes entry, bytes.length < 2 ^ 32 → c.deserialize bytes = some entry →
    Writable c.toCodec entry

-- a file that a flush of the memtable has written, but for the bytes of its footer
structure Altered (c : Crates) (memtable : MemTable) (contents : Contents) : Prop where
  writtenBy : ∃ original, WrittenBy c memtable original
  bytes_eq : ∃ footer, footer.length = (footerOf c memtable).length
    ∧ contents.bytes = encodedAll c.toCodec memtable.values ++ footer

-- the length of the footer, as the bit count at the end of the file declares it
def declaredFooter (contents : Contents) : Nat :=
  divCeil (ofLe (contents.bytes.drop (contents.length - 4))) 8 + 4

variable (c)

-- the records of the memtable that do not stand within the declared footer
def reached (memtable : MemTable) (contents : Contents) : List Entry :=
  ((placed c.toCodec 0 memtable.values).filter fun r =>
    r.1 + declaredFooter contents ≤ contents.length).map Prod.snd

-- the records that are read from the footer
def forged (memtable : MemTable) (contents : Contents) : List Entry :=
  recordsFrom c contents (contents.length - declaredFooter contents)
    (encodedAll c.toCodec memtable.values).length

/--
A merge of the records that can be read comes to the key with this entry.
-/
def Survives (ps : List (MemTable × Contents)) (key : String) (entry : Entry) : Prop :=
  comesUp Entry.key key (ps.map fun p => reached c p.1 p.2 ++ forged c p.1 p.2) = some entry

variable {c}

theorem fileScan_of_declaredFooter {contents : Contents} (hlong : 4 ≤ contents.length)
    (hfirst : (readNext c.toCodec contents 0).1.isSome = true) :
    fileScan c contents
      = if declaredFooter contents ≤ contents.length then
          recordsFrom c contents (contents.length - declaredFooter contents) 0
        else
          [] := by
  have hdeclared : declaredFooter contents
      = divCeil (ofLe (contents.bytes.drop (contents.length - 4))) 8 + 4 := rfl
  have hfilter : filterOf contents.bytes
      = if declaredFooter contents ≤ contents.length then
          some
            { bitCount := ofLe (contents.bytes.drop (contents.length - 4))
              inner := (contents.bytes.drop (contents.length - declaredFooter contents)).take
                (divCeil (ofLe (contents.bytes.drop (contents.length - 4))) 8) }
        else
          none := by
    unfold filterOf
    exact if_neg (Nat.not_lt.mpr hlong)
  unfold fileScan openTable
  rw [hfilter]
  by_cases hfits : declaredFooter contents ≤ contents.length
  . have hinner : ((contents.bytes.drop (contents.length - declaredFooter contents)).take
        (divCeil (ofLe (contents.bytes.drop (contents.length - 4))) 8)).length + 4
          = declaredFooter contents := by
      have hlength : contents.bytes.length = contents.length := rfl
      rw [List.length_take, List.length_drop, hlength, Nat.min_eq_left (by omega), hdeclared]
    rw [if_pos hfits, if_pos hfits]
    dsimp only
    rw [if_pos hfirst, hinner]
  . rw [if_neg hfits, if_neg hfits]

/--
What can be read of the file: of its records those in front of the declared footer, and then what
decodes from its footer.
-/
theorem Altered.fileScan_eq {memtable : MemTable} {contents : Contents}
    (h : Altered c memtable contents) :
    fileScan c contents = reached c memtable contents ++ forged c memtable contents := by
  rcases h.writtenBy with ⟨original, hwritten⟩
  rcases h.bytes_eq with ⟨footer, hlen, hbytes⟩
  have hentries := hwritten.stored.tableEntries
  have hlong : 4 ≤ contents.length := by
    rw [Contents.length, hbytes, List.length_append, hlen, footerOf, BloomFilter.length_footer]
    omega
  rw [fileScan_of_declaredFooter hlong (isSome_readNext_zero hentries hwritten.nonempty hbytes)]
  split
  . next hfits =>
    have hdrain := drain_placed [] footer (contents.length - declaredFooter contents)
      hentries.writable
    rw [List.nil_append, List.length_nil, Nat.zero_add, ← hbytes] at hdrain
    have hbound : (fun r : Nat × Entry => decide (r.1 ≤ contents.length - declaredFooter contents))
        = fun r => decide (r.1 + declaredFooter contents ≤ contents.length) := by
      funext r
      rw [decide_eq_decide]
      omega
    unfold reached forged recordsFrom
    rw [hdrain, List.map_append, hbound]
  . next hlonger =>
    have hpos : 0 < (encodedAll c.toCodec memtable.values).length := by
      rcases List.exists_cons_of_ne_nil hwritten.nonempty with ⟨entry, rest, hvalues⟩
      have hentry : entry ∈ memtable.values := by
        rw [hvalues]
        exact List.mem_cons_self
      have := List.length_pos_iff.mpr (encoded_ne_nil (hentries.writable entry hentry))
      rw [hvalues, encodedAll_cons, List.length_append]
      omega
    have hreached : reached c memtable contents = [] := by
      unfold reached
      rw [List.map_eq_nil_iff, List.filter_eq_nil_iff]
      intro r _
      rw [decide_eq_true_eq]
      omega
    have hforged : forged c memtable contents = [] := recordsFrom_of_gt (by omega)
    rw [hreached, hforged]
    rfl

theorem ascending_reached (memtable : MemTable) (contents : Contents) :
    Ascending Entry.key (reached c memtable contents) := by
  have hsub := (List.filter_sublist (p := fun r : Nat × Entry =>
    decide (r.1 + declaredFooter contents ≤ contents.length))
    (l := placed c.toCodec 0 memtable.values)).map Prod.snd
  rw [map_snd_placed] at hsub
  exact (MemTable.values_pairwise memtable).sublist hsub

/--
A record that does not stand within the declared footer is kept if no other one of its key can be read
from the newer files.
-/
theorem Survives.of_reached {newer older : List (MemTable × Contents)} {memtable : MemTable}
    {contents : Contents} {entry : Entry} (hentry : entry ∈ reached c memtable contents)
    (hnewer : ∀ p ∈ newer, ∀ e ∈ reached c p.1 p.2 ++ forged c p.1 p.2, e.key ≠ entry.key) :
    Survives c (newer ++ (memtable, contents) :: older) entry.key entry := by
  have hnone : ((newer.map fun p => reached c p.1 p.2 ++ forged c p.1 p.2).findSome?
      (comesTo Entry.key entry.key)) = none := by
    rw [List.findSome?_eq_none_iff]
    intro s hs
    rw [List.mem_map] at hs
    rcases hs with ⟨p, hp, rfl⟩
    exact comesTo_eq_none (hnewer p hp)
  apply comesUp_of_comesTo
  rw [List.map_append, List.findSome?_append, hnone, Option.none_or, List.map_cons,
    List.findSome?_cons, comesTo_append (ascending_reached memtable contents) hentry]

/--
Where the footers hold no records, an entry is kept if and only if it is the newest one of its key that
can be read.
-/
theorem survives_iff_first {ps : List (MemTable × Contents)} {key : String} {entry : Entry}
    (hforged : ∀ p ∈ ps, forged c p.1 p.2 = []) :
    Survives c ps key entry
      ↔ first Entry.key (ps.map fun p => reached c p.1 p.2) key = some entry := by
  have hmap : (ps.map fun p => reached c p.1 p.2 ++ forged c p.1 p.2)
      = ps.map fun p => reached c p.1 p.2 := by
    apply List.map_congr_left
    intro p hp
    rw [hforged p hp, List.append_nil]
  unfold Survives
  rw [hmap, comesUp_eq_first]
  intro s hs
  rw [List.mem_map] at hs
  rcases hs with ⟨p, -, rfl⟩
  exact ascending_reached p.1 p.2

theorem Rewritable.of_mem (h : Rewritable c) {d : Disk} {s : List Entry} (hs : s ∈ streamsOf c d)
    {entry : Entry} (hentry : entry ∈ s) : Writable c.toCodec entry := by
  rcases exists_payload_of_mem_streamsOf hs hentry with ⟨payload, hlt, hpayload⟩
  exact h payload entry hlt hpayload

theorem MergedInto.newest_eq (hcodec : Rewritable c) {tables : List (List Entry)} {d d' : Disk}
    (h : MergedInto c tables d d')
    (hfooters : FootersClean c (removeAll d.sstables.keys.reverse d')) :
    (∀ l ∈ layers c (removeAll d.sstables.keys.reverse d'), l.Exact)
      ∧ ∀ key, newest (layers c (removeAll d.sstables.keys.reverse d')) key
        = (comesUp Entry.key key (streamsOf c d)).filter Entry.isSet := by
  rcases h.emitted with ⟨out, hmem, hnodup, hstreams, hfind⟩
  have hfiles := h.mem_files
  have htables : ∀ table ∈ tables, TableEntries c table ∧ table.length * 10 < 2 ^ 32 := by
    intro table htable
    rcases h with ⟨streams, seenKeys, hrolling, -⟩
    have htable' := hrolling.added.of_mem table htable
    refine ⟨⟨htable'.1, ?_⟩, htable'.2⟩
    intro entry hentry
    rcases hstreams entry ((hmem entry).mp ⟨table, htable, hentry⟩) with ⟨s, hs, hentry⟩
    exact hcodec.of_mem hs hentry
  generalize removeAll d.sstables.keys.reverse d' = d'' at hfiles hfooters
  have hout : ∀ contents ∈ files d'', ∀ table ∈ tables, contents.bytes = image c table →
      (layer c contents).Exact ∧ fileScan c contents = table := by
    intro contents hcontents table htable hbytes
    have hout : Output c table contents := ⟨(htables table htable).1, (htables table htable).2, hbytes⟩
    have hfooter := hfooters contents hcontents table hout.tableEntries hbytes
    exact ⟨hout.exact hfooter, hout.fileScan_eq hfooter⟩
  constructor
  . apply exact_of_mem_layers
    intro contents hcontents
    rcases hfiles.1 contents hcontents with ⟨table, htable, hbytes⟩
    exact (hout contents hcontents table htable hbytes).1
  . intro key
    have hfirst : newest (layers c d'') key
        = first Entry.key ((files d'').map (fileScan c)) key := by
      unfold newest first layers
      rw [List.findSome?_map, List.findSome?_map]
      rfl
    rw [hfirst, ← hfind]
    apply first_eq_find _ _ hnodup
    intro entry
    rw [← hmem]
    constructor
    . rintro ⟨s, hs, hentry⟩
      rw [List.mem_map] at hs
      rcases hs with ⟨contents, hcontents, rfl⟩
      rcases hfiles.1 contents hcontents with ⟨table, htable, hbytes⟩
      rw [(hout contents hcontents table htable hbytes).2] at hentry
      exact ⟨table, htable, hentry⟩
    . rintro ⟨table, htable, hentry⟩
      rcases hfiles.2 table htable with ⟨contents, hcontents, hbytes⟩
      refine ⟨table, ?_, hentry⟩
      rw [List.mem_map]
      exact ⟨contents, hcontents, (hout contents hcontents table htable hbytes).2⟩

/--
After a compaction of files with altered footers, the newest record of a key is found if and only if a
merge of the records that can be read comes to the key with it.
-/
theorem get_compact_altered (hcodec : Rewritable c) {m m' : Store}
    {ps : List (MemTable × Contents)} (hfiles : files m.disk = ps.map Prod.snd)
    (haltered : ∀ p ∈ ps, Altered c p.1 p.2) (hfresh : FreshReadings m.disk)
    (hempty : m.self.memtable = .new) (hrun : (compact c).run m = .ok () m')
    (hfooters : FootersClean c m'.disk) :
    ∀ key entry, first Entry.key (ps.map fun p => p.1.values) key = some entry →
      entry.isSet = true →
      (m'.get c key = some (some entry) ↔ Survives c ps key entry) := by
  intro key entry _ hset
  have hwp : wp (fun _ => True) (compact c) (fun _ m' => m'.self = m.self
      ∧ ∃ tables d', MergedInto c tables m.disk d'
        ∧ m'.disk = removeAll m.disk.sstables.keys.reverse d') (fun _ _ => True) m := by
    apply wp_selfless selfless_compact
    apply wp_compact_of_serializable _ (namesFresh_of_freshReadings hfresh _)
    . intro m' d' tables _ hmerged hdisk hself
      exact ⟨hself, tables, d', hmerged, hdisk⟩
    . intros
      trivial
    . intros
      trivial
    . intro s hs entry hentry
      exact (hcodec.of_mem hs hentry).serializable
  rcases hwp.of_ok hrun ⟨trivial, fun _ _ => trivial⟩ with ⟨hself, tables, d', hmerged, hdisk⟩
  rw [hdisk] at hfooters
  rcases hmerged.newest_eq hcodec hfooters with ⟨hexact, hnewest⟩
  rw [← hdisk] at hexact hnewest
  have hreadable : comesUp Entry.key key (streamsOf c m.disk)
      = comesUp Entry.key key (ps.map fun p => reached c p.1 p.2 ++ forged c p.1 p.2) := by
    rw [comesUp_files, hfiles, List.map_map]
    congr 1
    apply List.map_congr_left
    intro p hp
    exact (haltered p hp).fileScan_eq
  rw [Store.get_eq_lookup, lookup_of_exact hexact, lookupNewest, hself, hempty, hnewest, hreadable,
    Option.filter_filter]
  simp only [MemTable.get_new, Bool.and_self, Option.some.injEq, Option.filter_eq_some_iff]
  exact ⟨fun h => h.1, fun h => ⟨h, hset⟩⟩

theorem rewritable_concrete : Rewritable Concrete.crates := by
  intro bytes entry hlt hentry
  rcases reserializable_concrete bytes entry hlt hentry with ⟨payload, hpayload, hlen⟩
  exact ⟨payload, Concrete.roundTrips hpayload hlen⟩

-- the file of two records, with a bit count of 320 instead of 20
def pairAltered : Contents :=
  .clip (encodedAll Concrete.crates.toCodec pairMemtable.values ++ [0, 0, 0, 64, 1, 0, 0])

def alteredStore : Store :=
  pairStore.overwritten pairName pairAltered

theorem altered_pairAltered : Altered Concrete.crates pairMemtable pairAltered := by
  refine ⟨⟨pairContents, clean_pairContents.writtenBy⟩, [0, 0, 0, 64, 1, 0, 0], ?_, ?_⟩
  . decide +kernel
  . decide +kernel

theorem files_alteredStore : files alteredStore.disk = [pairAltered] := by
  have hkeys : pairStore.disk.sstables.entries.map Prod.fst = [pairName] := by decide +kernel
  rcases List.map_eq_singleton_iff.mp hkeys with ⟨⟨name, contents⟩, hentries, hname⟩
  dsimp only at hname
  subst hname
  have hwrite : alteredStore.disk.sstables.entries = [] ++ (pairName, pairAltered) :: [] :=
    SortedMap.entries_insert_of_eq pairAltered hentries
  unfold files
  rw [hwrite]
  rfl

theorem freshReadings_alteredStore : FreshReadings alteredStore.disk := by
  have hrun : (MemTable.flushTo Concrete.crates).run (.boot (Disk.empty Nat.succ) pairMemtable)
      = .ok () pairMachine := run_eq_of_value (by decide +kernel)
  have hwp : wp (fun _ => True) (MemTable.flushTo Concrete.crates)
      (fun _ m' => m'.disk.clock = Nat.succ ∧ m'.disk.ticks = 1) (fun _ _ => True)
      (.boot (Disk.empty Nat.succ) pairMemtable) := by
    apply wp_flushTo clean_pairContents.writtenBy.stored.serializable
    . intro hempty
      change pairMemtable.isEmpty = true at hempty
      rw [isEmpty_eq_false clean_pairContents.writtenBy.nonempty] at hempty
      contradiction
    . intro m' new _ _ _ _ hdisk _
      rw [hdisk]
      exact ⟨rfl, rfl⟩
    . intros
      trivial
  rcases hwp.of_ok hrun ⟨trivial, fun _ _ => trivial⟩ with ⟨hclock, hticks⟩
  have hkeys : alteredStore.disk.sstables.keys = [MemTable.fileName 1] := by decide +kernel
  intro i hi
  change pairMachine.disk.ticks ≤ i at hi
  change MemTable.fileName (pairMachine.disk.clock i) ∉ _ ∧ ∀ j, pairMachine.disk.ticks ≤ j →
    j < i → pairMachine.disk.clock j ≠ pairMachine.disk.clock i
  rw [hkeys, hclock, List.mem_singleton]
  constructor
  . intro heq
    have hone := MemTable.fileName_injective heq
    omega
  . intro j _ hlt heq
    omega

/--
The declared footer begins in front of the second record. So the merge does not read it, and the file is
deleted.
-/
theorem compact_loses_altered :
    Altered Concrete.crates pairMemtable pairAltered
      ∧ files alteredStore.disk = [pairAltered]
      ∧ first Entry.key [pairMemtable.values] "x" = some (.set "x" "y")
      ∧ ∃ m' : Store, (compact Concrete.crates).run alteredStore = .ok () m'
        ∧ m'.get Concrete.crates "x" = some none := by
  refine ⟨altered_pairAltered, files_alteredStore, ?_, _, run_eq_of_value ?_, ?_⟩
  . decide +kernel
  . decide +kernel
  . decide +kernel

theorem get_compact_altered_pairAltered :
    ∃ m' : Store, (compact Concrete.crates).run alteredStore = .ok () m'
      ∧ m'.get Concrete.crates "a" = some (some (.set "a" "b")) := by
  have hrun : (compact Concrete.crates).run alteredStore
      = .ok () ((compact Concrete.crates).run alteredStore).machine :=
    run_eq_of_value (by decide +kernel)
  have hreached : .set "a" "b" ∈ reached Concrete.crates pairMemtable pairAltered := by
    decide +kernel
  have hsurvives : Survives Concrete.crates ([] ++ (pairMemtable, pairAltered) :: []) "a"
      (.set "a" "b") :=
    Survives.of_reached hreached (by simp)
  have haltered : ∀ p ∈ [(pairMemtable, pairAltered)], Altered Concrete.crates p.1 p.2 := by
    intro p hp
    rw [List.mem_singleton.mp hp]
    exact altered_pairAltered
  have hnewest : first Entry.key ([(pairMemtable, pairAltered)].map fun p => p.1.values) "a"
      = some (.set "a" "b") := by
    decide +kernel
  refine ⟨_, hrun, ?_⟩
  have hget := get_compact_altered rewritable_concrete files_alteredStore haltered
    freshReadings_alteredStore rfl hrun (Strict.sound (Strict.of_check (by decide +kernel))).footers
  exact (hget "a" (.set "a" "b") hnewest rfl).mpr hsurvives

end Chickadee
