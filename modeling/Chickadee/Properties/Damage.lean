import Chickadee.Properties.Filter

/-!
This module contains that a damaged record of a file costs its own key only, for the lookups in the
files and for the compaction of them.
-/

namespace Chickadee

open Faulty Faulty.Io Layers Resync KWay

variable {c : Crates}

-- a file that a flush has written, and from the footer of which nothing decodes
structure Clean (c : Crates) (memtable : MemTable) (contents : Contents) : Prop where
  writtenBy : WrittenBy c memtable contents
  footer : ∀ q < (footerOf c memtable).length,
    parseRecord c.toCodec ((footerOf c memtable).drop q) = none

/--
In place of the record of `entry` there are as many other bytes now, and from none of them on a record
decodes.
-/
structure Damaged (c : Crates) (memtable : MemTable) (before : List Entry) (entry : Entry)
    (after : List Entry) (junk : Bytes) (damaged : Contents) : Prop where
  values_eq : memtable.values = before ++ entry :: after
  length_eq : junk.length = (encoded c.toCodec entry).length
  bytes_eq : damaged.bytes = encodedAll c.toCodec before
    ++ (junk ++ (encodedAll c.toCodec after ++ footerOf c memtable))
  silent : ∀ q < junk.length, parseRecord c.toCodec
    ((junk ++ (encodedAll c.toCodec after ++ footerOf c memtable)).drop q) = none

theorem Clean.footerClean {memtable : MemTable} {contents : Contents}
    (h : Clean c memtable contents) : FooterClean c memtable.values contents.bytes :=
  h.writtenBy.footerClean h.footer

theorem Clean.fileScan_eq {memtable : MemTable} {contents : Contents}
    (h : Clean c memtable contents) : fileScan c contents = memtable.values :=
  h.writtenBy.output.fileScan_eq h.footerClean

theorem Clean.exact {memtable : MemTable} {contents : Contents} (h : Clean c memtable contents) :
    (layer c contents).Exact :=
  h.writtenBy.output.exact h.footerClean

def Store.overwritten (m : Store) (name : String) (contents : Contents) : Store :=
  { m with disk := m.disk.write (.sstable name) contents }

namespace Damaged

variable {memtable : MemTable} {before after : List Entry} {entry : Entry} {junk : Bytes}
variable {contents damaged : Contents}

theorem recordsFrom_eq (h : Damaged c memtable before entry after junk damaged)
    (hclean : Clean c memtable contents) :
    recordsFrom c damaged (encodedAll c.toCodec memtable.values).length 0 = before ++ after := by
  have hwritable : ∀ e ∈ before ++ after, Writable c.toCodec e := by
    intro e he
    apply hclean.writtenBy.stored e
    rw [h.values_eq]
    cases List.mem_append.mp he with
    | inl hmem => exact List.mem_append_left _ hmem
    | inr hmem => exact List.mem_append_right _ (List.mem_cons_of_mem _ hmem)
  have hlen : (encodedAll c.toCodec memtable.values).length = (encodedAll c.toCodec before).length
      + (junk.length + (encodedAll c.toCodec after).length) := by
    rw [h.values_eq, h.length_eq]
    simp only [encodedAll_append, encodedAll_cons, List.length_append]
  generalize (encodedAll c.toCodec memtable.values).length = bound at hlen
  have hbefore := drain_encodedAll []
    (junk ++ (encodedAll c.toCodec after ++ footerOf c memtable)) bound
    (fun e he => hwritable e (List.mem_append_left _ he))
    (by simp only [List.length_nil, Nat.zero_add]; omega)
  simp only [List.nil_append, List.length_nil, Nat.zero_add] at hbefore
  rw [← h.bytes_eq] at hbefore
  have hgap : ∀ q < junk.length, (recordParser c.toCodec).parse
      (damaged.bytes.drop ((encodedAll c.toCodec before).length + q)) = none := by
    intro q hq
    rw [h.bytes_eq, List.drop_length_add_append]
    exact h.silent q hq
  have hafter := drain_encodedAll (encodedAll c.toCodec before ++ junk) (footerOf c memtable) bound
    (fun e he => hwritable e (List.mem_append_right _ he))
    (by rw [List.length_append]; omega)
  simp only [List.append_assoc, List.length_append] at hafter
  rw [← h.bytes_eq] at hafter
  unfold recordsFrom
  rw [hbefore, drain_of_gap _ (by omega) hgap, hafter, drain_of_scan_none, List.append_nil,
    List.map_append, map_snd_placed, map_snd_placed]
  rw [scan_eq_none_iff, h.bytes_eq, Nat.add_assoc, ← List.drop_drop, List.drop_left,
    ← List.drop_drop, List.drop_left, List.drop_left]
  exact hclean.footer

theorem openTable_eq (h : Damaged c memtable before entry after junk damaged)
    (hclean : Clean c memtable contents) :
    openTable c damaged
      =
    if before ++ after = [] then
      none
    else
      some (BloomFilter.ofKeys c (memtable.values.map Entry.key),
        (encodedAll c.toCodec memtable.values).length) := by
  have hrecords := h.recordsFrom_eq hclean
  have hlen : damaged.length = (encodedAll c.toCodec memtable.values).length
      + (footerOf c memtable).length := by
    rw [Contents.length, h.bytes_eq, h.values_eq]
    simp only [encodedAll_append, encodedAll_cons, List.length_append, h.length_eq]
    omega
  have hfilter : filterOf damaged.bytes
      = some (BloomFilter.ofKeys c (memtable.values.map Entry.key)) := by
    rw [h.bytes_eq, ← List.append_assoc, ← List.append_assoc]
    apply filterOf_append_footer
    . have hsmall := hclean.writtenBy.small
      rw [← MemTable.length_values] at hsmall
      simpa using hsmall
    . simp
  unfold openTable
  rw [hfilter]
  dsimp only
  cases hnext : (readNext c.toCodec damaged 0).1 with
  | none =>
    rw [recordsFrom_of_readNext_none hnext] at hrecords
    rw [← hrecords, if_pos rfl]
    rfl
  | some e =>
    rw [recordsFrom_of_readNext_some (Nat.zero_le _) hnext] at hrecords
    rw [← hrecords, if_pos Option.isSome_some, if_neg (by simp), hlen, footerOf,
      BloomFilter.length_footer, Nat.add_sub_cancel]

theorem fileScan_eq (h : Damaged c memtable before entry after junk damaged)
    (hclean : Clean c memtable contents) : fileScan c damaged = before ++ after := by
  unfold fileScan
  rw [h.openTable_eq hclean]
  by_cases hnil : before ++ after = []
  . rw [if_pos hnil, hnil]
  . rw [if_neg hnil]
    exact h.recordsFrom_eq hclean

theorem exact (h : Damaged c memtable before entry after junk damaged)
    (hclean : Clean c memtable contents) : (layer c damaged).Exact := by
  intro key
  change fileGet c damaged key = (fileScan c damaged).find? _
  rw [h.fileScan_eq hclean]
  unfold fileGet
  rw [h.openTable_eq hclean]
  by_cases hnil : before ++ after = []
  . rw [if_pos hnil, hnil]
    rfl
  . rw [if_neg hnil]
    dsimp only
    rw [h.recordsFrom_eq hclean]
    split
    . rfl
    . next hcontain =>
      apply Eq.symm
      rw [List.find?_eq_none]
      intro e he hkey
      apply hcontain
      apply BloomFilter.mayContain_ofKeys
      rw [← of_decide_eq_true hkey]
      apply List.mem_map_of_mem
      rw [h.values_eq]
      cases List.mem_append.mp he with
      | inl hmem => exact List.mem_append_left _ hmem
      | inr hmem => exact List.mem_append_right _ (List.mem_cons_of_mem _ hmem)

theorem scan_eq (h : Damaged c memtable before entry after junk damaged)
    (hclean : Clean c memtable contents) {key : String} (hkey : key ≠ entry.key) :
    (layer c damaged).scan key = (layer c contents).scan key := by
  change (fileScan c damaged).find? _ = (fileScan c contents).find? _
  rw [hclean.fileScan_eq, h.fileScan_eq hclean, h.values_eq, List.find?_append, List.find?_append,
    List.find?_cons_of_neg (by simpa using Ne.symm hkey)]

theorem tableEntries (h : Damaged c memtable before entry after junk damaged)
    (hclean : Clean c memtable contents) : TableEntries c (fileScan c damaged) := by
  have hsub : (before ++ after).Sublist memtable.values := by
    rw [h.values_eq]
    exact (List.Sublist.refl before).append (List.sublist_cons_self entry after)
  rw [h.fileScan_eq hclean]
  exact hclean.writtenBy.output.tableEntries.sublist hsub

end Damaged

theorem layers_overwritten {d : Disk} {name : String} {contents : Contents}
    (hname : d.sstables.get? name = some contents) (damaged : Contents) :
    ∃ newer older, layers c d = newer ++ layer c contents :: older
      ∧ layers c (d.write (.sstable name) damaged) = newer ++ layer c damaged :: older
      ∧ files (d.write (.sstable name) damaged) ⊆ damaged :: files d := by
  rw [SortedMap.get?_eq_some_iff] at hname
  rcases List.append_of_mem hname with ⟨ps, qs, hentries⟩
  have hinsert := SortedMap.entries_insert_of_eq damaged hentries
  have hwrite : (d.write (.sstable name) damaged).sstables.entries = ps ++ (name, damaged) :: qs :=
    hinsert
  refine ⟨qs.reverse.map fun p => layer c p.2, ps.reverse.map fun p => layer c p.2, ?_, ?_, ?_⟩
  . rw [layers_eq, hentries]
    simp
  . rw [layers_eq, hwrite]
    simp
  . unfold files
    rw [hwrite, hentries]
    intro contents hcontents
    simp only [List.reverse_append, List.reverse_cons, List.append_assoc, List.map_append,
      List.map_cons, List.map_nil, List.mem_append, List.mem_cons, List.not_mem_nil, or_false,
      List.mem_map, List.mem_reverse] at hcontents ⊢
    rcases hcontents with hq | hdamaged | hp
    . exact Or.inr (Or.inl hq)
    . exact Or.inl hdamaged
    . exact Or.inr (Or.inr (Or.inr hp))

theorem newest_overwritten {d : Disk} {name : String} {contents damaged : Contents} {key : String}
    (hname : d.sstables.get? name = some contents)
    (hscan : (layer c damaged).scan key = (layer c contents).scan key) :
    newest (layers c (d.write (.sstable name) damaged)) key = newest (layers c d) key := by
  rcases layers_overwritten (c := c) hname damaged with ⟨newer, older, hlayers, hlayers', -⟩
  rw [hlayers, hlayers', newest_append, newest_append, newest_cons, newest_cons, hscan]

theorem Named.overwritten {d : Disk} {name : String} (h : Named d) (hname : name ∈ d.sstables.keys)
    (contents : Contents) : Named (d.write (.sstable name) contents) := by
  intro name' hname'
  cases (SortedMap.mem_keys_insert _ _ _ _).mp hname' with
  | inl heq =>
    rw [heq]
    exact h name hname
  | inr hmem => exact h name' hmem

def lookupNewest (memtable : MemTable) (ls : List (Layer String Entry)) (key : String) :
    Option Entry :=
  match memtable.get key with
  | some entry => Log.visible entry
  | none => (newest ls key).filter Entry.isSet

theorem lookup_of_exact {ls : List (Layer String Entry)} (h : ∀ l ∈ ls, l.Exact)
    (memtable : MemTable) (key : String) : lookup memtable ls key = lookupNewest memtable ls key := by
  unfold lookup lookupNewest
  cases memtable.get key with
  | none => exact congrArg (Option.filter Entry.isSet) (found_of_exact h key)
  | some entry => rfl

theorem get_compact {m : Store} (hm : m.Faultless) (hnamed : Named m.disk)
    (hscans : ∀ contents ∈ files m.disk, TableEntries c (fileScan c contents))
    (hclock : ((compact c).run m).machine.Always ClockUp)
    (hfooters : FootersClean c ((compact c).run m).machine.disk)
    (hspace : ∀ m', (compact c).run m ≠ .error (.raised .fileTooLarge) m') :
    ∃ m' : Store, (compact c).run m = .ok () m' ∧ ∀ key,
      m'.get c key = some (lookupNewest m.self.memtable (layers c m.disk) key) := by
  have hwp : wp ClockUp (compact c) (fun _ m' => m'.self = m.self
      ∧ Deleting c [] m.disk m'.disk) (fun e _ => e = .fault ∨ e = .raised .fileTooLarge) m := by
    apply wp_selfless selfless_compact
    apply wp_compact (fun _ hd => hd) hnamed hscans
    . intro m' _ hdeleting hself
      exact ⟨hself, hdeleting⟩
    . intro e m' _ _ he _
      exact he
    . intro m' name _ _ _ _ _
      exact Or.inl rfl
  rcases exists_ok_of_space hwp hm hclock hspace with ⟨_, m', hrun, hself, hdeleting⟩
  refine ⟨m', hrun, ?_⟩
  intro key
  rw [hrun] at hfooters
  rcases hdeleting.merged hfooters with ⟨outs, hfiles, -, hmerged⟩
  rw [Store.get_eq_lookup, layers, hfiles, List.append_nil, hself, lookup_of_exact hmerged.exact,
    lookupNewest, lookupNewest, hmerged.newest_eq, Option.filter_filter]
  simp only [Bool.and_self]

/--
Whatever has happened to a record of a file, `get` answers for the other keys what it answered before,
and so it does after a compaction.
-/
theorem get_damaged {m : Store} {name : String} {contents damaged : Contents} {memtable : MemTable}
    {before after : List Entry} {entry : Entry} {junk : Bytes}
    (hfiles : ∀ contents ∈ files m.disk, ∃ memtable, Clean c memtable contents)
    (hname : m.disk.sstables.get? name = some contents) (hclean : Clean c memtable contents)
    (hdamaged : Damaged c memtable before entry after junk damaged) {key : String}
    (hkey : key ≠ entry.key) :
    (m.overwritten name damaged).get c key = m.get c key
      ∧ (Named m.disk →
        ((compact c).run (m.overwritten name damaged).faultless).machine.Always ClockUp →
        FootersClean c ((compact c).run (m.overwritten name damaged).faultless).machine.disk →
        (∀ m', (compact c).run (m.overwritten name damaged).faultless
          ≠ .error (.raised .fileTooLarge) m') →
        ∃ m' : Store, (compact c).run (m.overwritten name damaged).faultless = .ok () m'
          ∧ m'.get c key = m.get c key) := by
  have hfile : ∀ contents ∈ files m.disk, (layer c contents).Exact
      ∧ TableEntries c (fileScan c contents) := by
    intro contents hcontents
    rcases hfiles contents hcontents with ⟨memtable, hclean⟩
    refine ⟨hclean.exact, ?_⟩
    rw [hclean.fileScan_eq]
    exact hclean.writtenBy.output.tableEntries
  have hfile' : ∀ contents ∈ files (m.overwritten name damaged).disk, (layer c contents).Exact
      ∧ TableEntries c (fileScan c contents) := by
    intro contents hcontents
    rcases layers_overwritten (c := c) hname damaged with ⟨_, _, -, -, hsubset⟩
    cases List.mem_cons.mp (hsubset hcontents) with
    | inl heq =>
      rw [heq]
      exact ⟨hdamaged.exact hclean, hdamaged.tableEntries hclean⟩
    | inr hmem => exact hfile contents hmem
  have hexact : ∀ l ∈ layers c m.disk, l.Exact :=
    exact_of_mem_layers fun contents hcontents => (hfile contents hcontents).1
  have hexact' : ∀ l ∈ layers c (m.overwritten name damaged).disk, l.Exact :=
    exact_of_mem_layers fun contents hcontents => (hfile' contents hcontents).1
  -- the layers show the same
  have hnewest : newest (layers c (m.overwritten name damaged).disk) key
      = newest (layers c m.disk) key :=
    newest_overwritten hname (hdamaged.scan_eq hclean hkey)
  have hlookup : lookupNewest m.self.memtable (layers c (m.overwritten name damaged).disk) key
      = lookupNewest m.self.memtable (layers c m.disk) key := by
    rw [lookupNewest, hnewest]
    rfl
  rw [m.get_eq_lookup, lookup_of_exact hexact, ← hlookup]
  constructor
  . rw [Store.get_eq_lookup, lookup_of_exact hexact']
    rfl
  . intro hnamed hclock hfooters hspace
    have hcompact := get_compact (c := c) (m := (m.overwritten name damaged).faultless)
      (Store.faultless_faultless _)
      (hnamed.overwritten (SortedMap.mem_keys_of_get? hname) damaged)
      (fun contents hcontents => (hfile' contents hcontents).2) hclock hfooters hspace
    rcases hcompact with ⟨m', hrun, hget'⟩
    exact ⟨m', hrun, hget' key⟩

instance (d : Disk) : Decidable (ClockUp d) :=
  inferInstanceAs (Decidable (∀ i < d.ticks, d.clock i < 10 ^ 20 ∧ ∀ j < i, d.clock j < d.clock i))

def pairMemtable : MemTable :=
  [Entry.set "a" "b", .set "x" "y"].foldl (MemTable.processed Concrete.crates) .new

def pairMachine : Machine Call Disk MemTable :=
  ((MemTable.flushTo Concrete.crates).run (.boot (Disk.empty Nat.succ) pairMemtable)).machine

def pairName : String :=
  nextName (Disk.empty Nat.succ)

def pairContents : Contents :=
  pairMachine.disk.read (.sstable pairName)

def pairStore : Store :=
  pairMachine.withSelf Log.closed

def pairJunk : Bytes :=
  (encoded Concrete.crates.toCodec (.set "a" "b")).set 0 0

def pairDamaged : Contents :=
  .clip (pairJunk ++ (encodedAll Concrete.crates.toCodec [.set "x" "y"]
    ++ footerOf Concrete.crates pairMemtable))

theorem get?_pairStore : pairStore.disk.sstables.get? pairName = some pairContents := by
  have hsome : (pairStore.disk.sstables.get? pairName).isSome = true := by decide +kernel
  rcases Option.isSome_iff_exists.mp hsome with ⟨contents, hcontents⟩
  have hread : pairContents = (pairStore.disk.sstables.get? pairName).getD .empty := rfl
  rw [hread, hcontents, Option.getD_some]

theorem clean_pairContents : Clean Concrete.crates pairMemtable pairContents := by
  have hrun : (MemTable.flushTo Concrete.crates).run (.boot (Disk.empty Nat.succ) pairMemtable)
      = .ok () pairMachine := run_eq_of_value (by decide +kernel)
  refine ⟨⟨?_, ?_, ?_, _, _, rfl, hrun, get?_pairStore⟩, ?_⟩
  . apply stored_foldl_processed _ MemTable.stored_new
    intro entry hentry
    simp only [List.mem_cons, List.not_mem_nil, or_false] at hentry
    rcases hentry with rfl | rfl
    . exact Writable.of_check _ (by decide +kernel)
    . exact Writable.of_check _ (by decide +kernel)
  . decide +kernel
  . decide +kernel
  . intro q hq
    apply parseRecord_short
    rw [List.length_drop]
    have hlen : (footerOf Concrete.crates pairMemtable).length = 7 := by decide +kernel
    rw [hlen]
    exact (Nat.sub_le _ _).trans (by decide)

theorem get_damaged_pairStore :
    (pairStore.overwritten pairName pairDamaged).get Concrete.crates "x"
        = pairStore.get Concrete.crates "x"
      ∧ ∃ m' : Store, (compact Concrete.crates).run
          (pairStore.overwritten pairName pairDamaged).faultless = .ok () m'
        ∧ m'.get Concrete.crates "x" = pairStore.get Concrete.crates "x" := by
  have hkeys : pairStore.disk.sstables.keys = [pairName] := by decide +kernel
  have hfiles : ∀ contents ∈ files pairStore.disk, contents = pairContents := by
    intro contents hcontents
    unfold files at hcontents
    rw [List.mem_map] at hcontents
    rcases hcontents with ⟨⟨name, contents'⟩, hmem, rfl⟩
    have hget := (SortedMap.get?_eq_some_iff _ _ _).mpr (List.mem_reverse.mp hmem)
    have hname := SortedMap.mem_keys_of_get? hget
    rw [hkeys, List.mem_singleton] at hname
    rw [hname, get?_pairStore] at hget
    exact (Option.some.inj hget).symm
  have hdamaged : Damaged Concrete.crates pairMemtable [] (.set "a" "b") [.set "x" "y"] pairJunk
      pairDamaged := by
    refine ⟨?_, ?_, ?_, ?_⟩
    . decide +kernel
    . decide +kernel
    . decide +kernel
    . decide +kernel
  have hkey : "x" ≠ (Entry.set "a" "b").key := by decide
  have h := get_damaged (c := Concrete.crates) (m := pairStore)
    (fun contents hcontents => ⟨_, (hfiles contents hcontents).symm ▸ clean_pairContents⟩)
    get?_pairStore clean_pairContents hdamaged hkey
  refine ⟨h.1, ?_⟩
  apply h.2
  . intro name hname
    rw [hkeys, List.mem_singleton] at hname
    exact ⟨0, by decide +kernel, hname⟩
  . refine ⟨?_, ?_⟩
    . decide +kernel
    . decide +kernel
  . exact (Strict.sound (Strict.of_check (by decide +kernel))).footers
  . intro m' hm'
    have hvalue : ((compact Concrete.crates).run
        (pairStore.overwritten pairName pairDamaged).faultless).value? = some () := by
      decide +kernel
    rw [hm'] at hvalue
    clear hm'
    contradiction

end Chickadee
