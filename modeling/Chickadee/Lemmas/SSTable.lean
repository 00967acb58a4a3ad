import Chickadee.Impl.SSTable
import Chickadee.Lemmas.BloomFilter

/-!
This module contains what the reader of `SSTable`s sees in a file, as functions on its contents, and
what these are for a file that holds the image of a table and for one that holds a part of it.
-/

namespace Chickadee

open Faulty Faulty.Io LittleEndian Resync

variable {σ τ α β : Type}

/--
On the disk `d` and from the state `s`, `x` returns `a` in the state `s'` and leaves the disk as it
is.
-/
def Answers (x : Os σ α) (d : Disk) (s : σ) (a : α) (s' : σ) : Prop :=
  ∀ (T : Disk → Prop) (Q : α → Machine Call Disk σ → Prop)
    (E : Failure Error → Machine Call Disk σ → Prop) (m : Machine Call Disk σ),
    m.disk = d →
    m.self = s →
    (∀ m', Reads m m' → m'.self = s' → Q a m') →
    (∀ m', Reads m m' → E .fault m') →
    wp T x Q E m

namespace Answers

variable {d : Disk} {s s' s'' : σ}

theorem pure (a : α) : Answers (Pure.pure a) d s a s := by
  intro T Q E m _ hs hok _
  apply wp_pure
  exact hok m (Reads.refl m) hs

theorem bind {x : Os σ α} {f : α → Os σ β} {a : α} {b : β} (hx : Answers x d s a s')
    (hf : Answers (f a) d s' b s'') : Answers (x >>= f) d s b s'' := by
  intro T Q E m hd hs hok hfault
  apply wp_bind
  apply hx T _ _ m hd hs
  . intro m' hm hself
    apply hf T _ _ m' (by rw [hm.disk_eq, hd]) hself
    . intro m'' hm' hself'
      exact hok m'' (hm.trans hm') hself'
    . intro m'' hm'
      exact hfault m'' (hm.trans hm')
  . exact hfault

theorem map {x : Os σ α} {f : α → β} {a : α} (hx : Answers x d s a s') :
    Answers (f <$> x) d s (f a) s' := by
  rw [map_eq_pure_bind]
  exact bind hx (pure _)

theorem getSelf : Answers Io.getSelf d s s s := by
  intro T Q E m _ hs hok _
  apply wp_getSelf
  rw [hs]
  exact hok m (Reads.refl m) hs

theorem readDir : Answers Chickadee.readDir d s d.sstables.keys s := by
  intro T Q E m hd hs hok hfault
  apply wp_readDir
  . intro m' hm hself
    rw [hd]
    exact hok m' hm (hself.trans hs)
  . intro m' hm _
    exact hfault m' hm

theorem openFile {path : Path} (h : (d.get? path).isSome) :
    Answers (Chickadee.openFile path) d s ⟨path, 0⟩ s := by
  intro T Q E m hd hs hok hfault
  apply wp_openFile (by rw [hd]; exact h)
  . intro m' hm hself
    exact hok m' hm (hself.trans hs)
  . intro m' hm _
    exact hfault m' hm

theorem of_reading {x : FileIo α} {contents : Contents} {path : Path} {pos pos' : Nat} {a : α}
    (hx : Reading x contents pos (.ok a, pos')) (hpath : d.read path = contents) :
    Answers x d ⟨path, pos⟩ a ⟨path, pos'⟩ := by
  intro T Q E m hd hs hok hfault
  apply hx T Q E m (by rw [hd, hs, hpath]) (by rw [hs])
  . intro m' hm hself
    rw [hs] at hself
    exact hok m' hm hself
  . intro m' hm _
    exact hfault m' hm

theorem on {x : Os τ α} {t t' : τ} {a : α} (hx : Answers x d t a t') :
    Answers (Io.on t x) d s (a, t') s := by
  intro T Q E m hd hs hok hfault
  apply wp_on
  apply hx T _ _ _ hd rfl
  . intro m' hm hself
    rw [hself]
    exact hok _ (hm.of_withSelf.withSelf _) hs
  . intro m' hm
    exact hfault _ (hm.of_withSelf.withSelf _)

theorem zoom {x : Os τ α} {get : σ → τ} {put : σ → τ → σ} {t' : τ} {a : α}
    (hx : Answers x d (get s) a t') : Answers (Io.zoom get put x) d s a (put s t') := by
  intro T Q E m hd hs hok hfault
  apply wp_zoom
  rw [hs]
  apply hx T _ _ _ hd rfl
  . intro m' hm hself
    rw [hself]
    exact hok _ (hm.of_withSelf.withSelf _) rfl
  . intro m' hm
    exact hfault _ (hm.of_withSelf.withSelf _)

theorem run {x : Os σ α} {a : α} (hx : Answers x d s a s') {m : Machine Call Disk σ}
    (hm : m.Faultless) (hd : m.disk = d) (hs : m.self = s) :
    ∃ m', x.run m = .ok a m' ∧ Reads m m' ∧ m'.self = s' := by
  have hwp : wp (fun _ => True) x (fun a' m' => a' = a ∧ Reads m m' ∧ m'.self = s')
      (fun e _ => e = .fault) m := by
    apply hx _ _ _ m hd hs
    . intro m' hreads hself
      exact ⟨rfl, hreads, hself⟩
    . intros
      rfl
  rcases hwp.exists_ok hm ⟨trivial, fun _ _ => trivial⟩ (by simp) with ⟨a', m', hrun, rfl, h⟩
  exact ⟨m', hrun, h⟩

end Answers

variable (c : Crates)

def openTable (contents : Contents) : Option (BloomFilter × Nat) :=
  match filterOf contents.bytes with
  | none => none
  | some filter =>
    if (readNext c.toCodec contents 0).1.isSome then
      some (filter, contents.length - (filter.inner.length + 4))
    else
      none

-- the entries `read_next_entry` still returns from `pos` on
def recordsFrom (contents : Contents) (bound pos : Nat) : List Entry :=
  (drain (recordParser c.toCodec) contents.bytes bound pos).map Prod.snd

-- what `read_next_entry` does to the cursor
def nextPos (contents : Contents) (bound pos : Nat) : Nat :=
  if bound < pos then pos else (readNext c.toCodec contents pos).2

def fileScan (contents : Contents) : List Entry :=
  match openTable c contents with
  | none => []
  | some (_, bound) => recordsFrom c contents bound 0

def fileGet (contents : Contents) (key : String) : Option Entry :=
  match openTable c contents with
  | none => none
  | some (filter, bound) =>
    if filter.mayContain c (bytesOf key) then
      (recordsFrom c contents bound 0).find? (fun entry => entry.key = key)
    else
      none

variable {c}

theorem fileScan_of_fileGet {contents : Contents} {key : String} {entry : Entry}
    (h : fileGet c contents key = some entry) :
    (fileScan c contents).find? (fun entry => entry.key = key) = some entry := by
  unfold fileGet at h
  unfold fileScan
  split at h
  . contradiction
  . split at h
    . exact h
    . contradiction

theorem filterOf_inner_le {bytes : Bytes} {filter : BloomFilter} (h : filterOf bytes = some filter) :
    filter.inner.length = divCeil filter.bitCount 8
      ∧ filter.inner.length + 4 ≤ bytes.length
      ∧ filter.bitCount < 2 ^ 32 := by
  unfold filterOf at h
  split at h
  . contradiction
  . next hlong =>
    dsimp only at h
    split at h
    . next hfits =>
      cases h
      have hbits := ofLe_lt (bytes.drop (bytes.length - 4))
      rw [List.length_drop, show bytes.length - (bytes.length - 4) = 4 by omega] at hbits
      have hlen : (List.take (divCeil (ofLe (List.drop (bytes.length - 4) bytes)) 8)
          (List.drop (bytes.length - (divCeil (ofLe (List.drop (bytes.length - 4) bytes)) 8 + 4))
            bytes)).length
          = divCeil (ofLe (List.drop (bytes.length - 4) bytes)) 8 := by
        rw [List.length_take, List.length_drop]
        omega
      exact ⟨hlen, by dsimp only; omega, hbits⟩
    . contradiction

theorem reading_fromFile (contents : Contents) :
    ∃ pos, Reading (SSTable.fromFile c) contents 0 (.ok (openTable c contents), pos)
      ∧ ((openTable c contents).isSome → pos = 0) := by
  unfold openTable SSTable.fromFile
  have hread := reading_readBloomFilter contents 0
  cases hfilter : filterOf contents.bytes with
  | none =>
    rw [hfilter] at hread
    exact ⟨_, Reading.bind_ok hread (Reading.pure _), by simp⟩
  | some filter =>
    rw [hfilter] at hread
    have hle := filterOf_inner_le hfilter
    have hlen : contents.length = contents.bytes.length := rfl
    refine ⟨0, ?_, by simp⟩
    apply Reading.bind_ok hread
    dsimp only
    apply Reading.bind_ok
    . apply Reading.context
      apply checkedAdd_eq_some
      have hcap := divCeil_add_le _ hle.2.2
      rw [hle.1]
      exact hcap
    . apply Reading.bind_ok Reading.metadataLen
      apply Reading.bind_ok
      . apply Reading.context
        apply checkedSub_eq_some
        omega
      . apply Reading.bind_ok (reading_headerHasAtLeastOne _ _)
        cases (readNext c.toCodec contents 0).1.isSome with
        | true => apply Reading.pure
        | false => apply Reading.pure

theorem answers_fromPath {d : Disk} {name : String} {contents : Contents} {s : σ}
    (h : d.sstables.get? name = some contents) :
    Answers (SSTable.fromPath c name) d s
      ((openTable c contents).map fun table => ⟨table.1, table.2, ⟨.sstable name, 0⟩⟩) s := by
  have hget : d.get? (.sstable name) = some contents := h
  have hread : d.read (.sstable name) = contents := by
    rw [Disk.read, hget]
    rfl
  rcases reading_fromFile (c := c) contents with ⟨pos, hreading, hpos⟩
  unfold SSTable.fromPath
  apply Answers.bind (Answers.openFile (by rw [hget]; rfl))
  apply Answers.bind (Answers.on (Answers.of_reading hreading hread))
  cases hopen : openTable c contents with
  | none => apply Answers.pure
  | some table =>
    rw [hpos (by rw [hopen]; rfl)]
    apply Answers.pure

theorem recordsFrom_of_readNext_none {contents : Contents} {bound pos : Nat}
    (h : (readNext c.toCodec contents pos).1 = none) : recordsFrom c contents bound pos = [] := by
  unfold recordsFrom
  unfold readNext at h
  split at h
  . next hend =>
    rw [drain_of_forall_none, List.map_nil]
    intro q hq hq'
    unfold Contents.length at hend
    omega
  . split at h
    . next hscan => rw [drain_of_scan_none _ hscan, List.map_nil]
    . contradiction

theorem recordsFrom_of_readNext_some {contents : Contents} {bound pos : Nat} {entry : Entry}
    (hpos : pos ≤ bound) (h : (readNext c.toCodec contents pos).1 = some entry) :
    recordsFrom c contents bound pos
      = entry :: recordsFrom c contents bound (readNext c.toCodec contents pos).2 := by
  unfold recordsFrom
  unfold readNext at h ⊢
  split at h
  . contradiction
  . next hlt =>
    split at h
    . contradiction
    . next p value len hscan =>
      cases h
      rw [drain_of_scan_some _ hpos hscan, if_neg hlt]
      rw [List.map_cons]

theorem length_recordsFrom_le (contents : Contents) (bound pos : Nat) :
    (recordsFrom c contents bound pos).length ≤ bound + 1 - pos := by
  unfold recordsFrom
  rw [List.length_map]
  exact length_drain_le _ _ _ _

theorem recordsFrom_of_gt {contents : Contents} {bound pos : Nat} (h : bound < pos) :
    recordsFrom c contents bound pos = [] := by
  rw [recordsFrom, drain_of_gt _ h, List.map_nil]

theorem recordsFrom_nextPos (contents : Contents) (bound pos : Nat) :
    recordsFrom c contents bound (nextPos c contents bound pos)
      = (recordsFrom c contents bound pos).tail := by
  unfold nextPos
  split
  . next hgt => rw [recordsFrom_of_gt hgt, List.tail_nil]
  . next hle =>
    cases hnext : (readNext c.toCodec contents pos).1 with
    | some entry =>
      rw [recordsFrom_of_readNext_some (Nat.not_lt.mp hle) hnext, List.tail_cons]
    | none =>
      rw [recordsFrom_of_readNext_none hnext, List.tail_nil]
      apply recordsFrom_of_readNext_none
      -- the cursor is at the end now, or beyond it
      have hend : contents.length ≤ (readNext c.toCodec contents pos).2 := by
        unfold readNext at hnext ⊢
        split at hnext
        . next hend =>
          rw [if_pos hend]
          exact hend
        . next hlt =>
          split at hnext
          . next hscan =>
            simp only [hlt, ↓reduceIte, le_refl]
          . contradiction
      rw [readNext, if_pos hend]

theorem answers_readNextEntry {d : Disk} {contents : Contents} {path : Path}
    (filter : BloomFilter) (bound pos : Nat) (hread : d.read path = contents) :
    Answers (SSTable.readNextEntry c) d ⟨filter, bound, ⟨path, pos⟩⟩
      (recordsFrom c contents bound pos).head?
      ⟨filter, bound, ⟨path, nextPos c contents bound pos⟩⟩ := by
  unfold SSTable.readNextEntry SSTable.zoomFile nextPos
  apply Answers.bind Answers.getSelf
  apply Answers.bind
  . apply Answers.zoom
    apply Answers.of_reading Reading.streamPosition hread
  . dsimp only
    split
    . next hgt =>
      rw [recordsFrom_of_gt hgt]
      apply Answers.pure
    . next hle =>
      have hhead : (recordsFrom c contents bound pos).head?
          = (readNext c.toCodec contents pos).1 := by
        cases hnext : (readNext c.toCodec contents pos).1 with
        | none => rw [recordsFrom_of_readNext_none hnext, List.head?_nil]
        | some entry =>
          rw [recordsFrom_of_readNext_some (Nat.not_lt.mp hle) hnext, List.head?_cons]
      rw [hhead]
      apply Answers.zoom
      apply Answers.of_reading (reading_headerReadNext contents pos) hread

theorem length_recordsFrom_lt (contents : Contents) (filter : BloomFilter) (bound pos : Nat)
    (file : File) :
    (recordsFrom c contents bound pos).length < SSTable.fuel ⟨filter, bound, file⟩ := by
  have hlen := length_recordsFrom_le (c := c) contents bound pos
  unfold SSTable.fuel
  dsimp only
  omega

theorem fileScan_of_openTable {contents : Contents} {filter : BloomFilter} {bound : Nat}
    (h : openTable c contents = some (filter, bound)) :
    fileScan c contents = recordsFrom c contents bound 0 := by
  rw [fileScan, h]

/-! The image of a table -/

structure TableEntries (c : Crates) (entries : List Entry) : Prop where
  ascending : entries.Pairwise (fun e e' => e.key < e'.key)
  writable : ∀ entry ∈ entries, Writable c.toCodec entry

variable (c)

-- what `flush_to` writes for the entries of a memtable
def image (entries : List Entry) : Bytes :=
  encodedAll c.toCodec entries ++ (BloomFilter.ofKeys c (entries.map Entry.key)).footer

-- no record decodes from the footer
def FooterClean (entries : List Entry) (bytes : Bytes) : Prop :=
  ∀ q, (encodedAll c.toCodec entries).length ≤ q → parseRecord c.toCodec (bytes.drop q) = none

-- records decode only where one of `entries` was written
def RecordsOnly (entries : List Entry) (bytes : Bytes) : Prop :=
  ∀ q, (parseRecord c.toCodec (bytes.drop q)).isSome →
    ∃ before entry after, entries = before ++ entry :: after
      ∧ q = (encodedAll c.toCodec before).length

variable {c}

theorem FooterClean.of_recordsOnly {entries : List Entry} {bytes : Bytes}
    (hentries : TableEntries c entries) (h : RecordsOnly c entries bytes) :
    FooterClean c entries bytes := by
  intro q hq
  cases hparse : parseRecord c.toCodec (bytes.drop q) with
  | none => rfl
  | some r =>
    rcases h q (by rw [hparse]; rfl) with ⟨before, entry, after, rfl, rfl⟩
    have hne := encoded_ne_nil (hentries.writable entry (by simp))
    have := List.length_pos_iff.mpr hne
    simp only [encodedAll_append, encodedAll_cons, List.length_append] at hq
    omega

section Complete

variable {entries : List Entry} {contents : Contents}

theorem filterOf_image (hsmall : entries.length * 10 < 2 ^ 32) :
    filterOf (image c entries) = some (BloomFilter.ofKeys c (entries.map Entry.key)) := by
  apply filterOf_append_footer
  . simpa using hsmall
  . simp

theorem length_image :
    (image c entries).length
      = (encodedAll c.toCodec entries).length
        + ((BloomFilter.ofKeys c (entries.map Entry.key)).inner.length + 4) := by
  rw [image, List.length_append, BloomFilter.length_footer]

theorem isSome_readNext_zero {rest : Bytes} (hentries : TableEntries c entries) (hne : entries ≠ [])
    (hbytes : contents.bytes = encodedAll c.toCodec entries ++ rest) :
    (readNext c.toCodec contents 0).1.isSome := by
  cases entries with
  | nil => contradiction
  | cons entry entries =>
    have hwritable := hentries.writable entry List.mem_cons_self
    have hparse : parseRecord c.toCodec contents.bytes
        = some (entry, (encoded c.toCodec entry).length) := by
      rw [hbytes, encodedAll_cons, List.append_assoc]
      apply parseRecord_encoded hwritable
    have hscan : scan (parseRecord c.toCodec) contents.bytes
        = some (0, entry, (encoded c.toCodec entry).length) := by
      rw [scan_eq_some_iff]
      refine ⟨?_, hparse, by simp⟩
      have := (recordParser c.toCodec).le_of_parse hparse
      have := List.length_pos_iff.mpr (encoded_ne_nil hwritable)
      omega
    unfold readNext
    rw [if_neg, List.drop_zero, hscan]
    . rfl
    . have := ((scan_eq_some_iff _ _ _ _).mp hscan).1
      unfold Contents.length
      omega

theorem openTable_image (hentries : TableEntries c entries) (hne : entries ≠ [])
    (hsmall : entries.length * 10 < 2 ^ 32) (himage : contents.bytes = image c entries) :
    openTable c contents
      = some (BloomFilter.ofKeys c (entries.map Entry.key), (encodedAll c.toCodec entries).length)
      := by
  have hlen : contents.length = (image c entries).length := by rw [← himage]; rfl
  have hfirst := isSome_readNext_zero hentries hne himage
  unfold openTable
  rw [himage, filterOf_image hsmall]
  dsimp only
  rw [if_pos hfirst, hlen, length_image, Nat.add_sub_cancel]

theorem drain_image (hentries : TableEntries c entries) (hclean : FooterClean c entries contents.bytes)
    (himage : contents.bytes = image c entries) :
    drain (recordParser c.toCodec) contents.bytes (encodedAll c.toCodec entries).length 0
      = placed c.toCodec 0 entries := by
  have hdrain := drain_encodedAll [] (BloomFilter.ofKeys c (entries.map Entry.key)).footer
    (encodedAll c.toCodec entries).length hentries.writable (by simp)
  rw [List.nil_append, ← image, ← himage, List.length_nil] at hdrain
  rw [hdrain, drain_of_forall_none, List.append_nil]
  intro q hq _
  apply hclean q
  omega

/--
A complete file holds the entries it was written from.
-/
theorem fileScan_image (hentries : TableEntries c entries)
    (hsmall : entries.length * 10 < 2 ^ 32) (hclean : FooterClean c entries contents.bytes)
    (himage : contents.bytes = image c entries) : fileScan c contents = entries := by
  cases entries with
  | nil =>
    -- there is no record in the file
    unfold fileScan openTable
    rw [himage, filterOf_image hsmall]
    have hnone : (readNext c.toCodec contents 0).1 = none := by
      unfold readNext
      split
      . rfl
      . split
        . rfl
        . next hscan =>
          have := ((scan_eq_some_iff _ _ _ _).mp hscan).2.1
          rw [List.drop_drop, hclean _ (Nat.zero_le _)] at this
          contradiction
    rw [hnone]
    rfl
  | cons entry rest =>
    rw [fileScan_of_openTable (openTable_image hentries (by simp) hsmall himage), recordsFrom,
      drain_image hentries hclean himage, map_snd_placed]

theorem fileGet_image (hentries : TableEntries c entries)
    (hsmall : entries.length * 10 < 2 ^ 32) (hclean : FooterClean c entries contents.bytes)
    (himage : contents.bytes = image c entries) (key : String) :
    fileGet c contents key = entries.find? (fun entry => entry.key = key) := by
  have hscan := fileScan_image hentries hsmall hclean himage
  cases hfind : entries.find? (fun entry => entry.key = key) with
  | none =>
    cases hget : fileGet c contents key with
    | none => rfl
    | some entry =>
      have := fileScan_of_fileGet hget
      rw [hscan, hfind] at this
      contradiction
  | some entry =>
    have hmem := List.mem_of_find?_eq_some hfind
    have hkey : entry.key = key := by simpa using List.find?_some hfind
    have hopen := openTable_image hentries (List.ne_nil_of_mem hmem) hsmall himage
    have hcontain : (BloomFilter.ofKeys c (entries.map Entry.key)).mayContain c (bytesOf key)
        = true := by
      apply BloomFilter.mayContain_ofKeys
      rw [← hkey]
      exact List.mem_map_of_mem hmem
    unfold fileGet
    rw [hopen]
    dsimp only
    rw [if_pos hcontain, ← fileScan_of_openTable hopen, hscan, hfind]

end Complete

theorem mem_placed {T : Type} {c : Codec T} (pos : Nat) (before after : List T) (value : T) :
    (pos + (encodedAll c before).length, value) ∈ placed c pos (before ++ value :: after) := by
  induction before generalizing pos with
  | nil => simp [placed]
  | cons v before ih =>
    have := ih (pos + (encoded c v).length)
    rw [Nat.add_assoc] at this
    rw [List.cons_append, placed, encodedAll_cons, List.length_append]
    exact List.mem_cons_of_mem _ this

theorem placed_sorted {T : Type} {c : Codec T} (pos : Nat) {values : List T}
    (h : ∀ value ∈ values, Writable c value) :
    (placed c pos values).Pairwise (fun r r' => r.1 < r'.1) := by
  induction values generalizing pos with
  | nil => exact List.Pairwise.nil
  | cons value values ih =>
    apply List.Pairwise.cons _ (ih _ (fun v hv => h v (List.mem_cons_of_mem _ hv)))
    intro r hr
    have := (le_of_mem_placed hr).1
    have := List.length_pos_iff.mpr (encoded_ne_nil (h value List.mem_cons_self))
    dsimp only
    omega

/--
What is read from a part of an image is a part of what was to be written.
-/
theorem fileScan_sublist {entries : List Entry} {contents : Contents}
    (hentries : TableEntries c entries) (hpart : contents.bytes <+: image c entries)
    (honly : RecordsOnly c entries contents.bytes) : (fileScan c contents).Sublist entries := by
  unfold fileScan
  split
  . apply List.nil_sublist
  . next bound _ =>
    have hsorted := drain_sorted (recordParser c.toCodec) contents.bytes bound 0
    have hsub : drain (recordParser c.toCodec) contents.bytes bound 0
        ⊆ placed c.toCodec 0 entries := by
      rintro ⟨p, e⟩ hr
      rcases parse_of_mem_drain _ hr with ⟨-, n, hparse⟩
      change parseRecord c.toCodec (contents.bytes.drop p) = some (e, n) at hparse
      rcases honly p (by rw [hparse]; rfl) with ⟨before, entry, after, heq, rfl⟩
      rcases hpart with ⟨rest, hrest⟩
      -- the record that was written there is the one that is read
      have hlt := (of_parseRecord hparse).1
      rw [List.length_drop] at hlt
      have hwhole := parseRecord_append hparse rest
      have hwritable := hentries.writable entry (by rw [heq]; simp)
      rw [← List.drop_append_of_le_length (by omega), hrest, image, heq, encodedAll_append,
        encodedAll_cons, List.append_assoc, List.drop_left, List.append_assoc,
        parseRecord_encoded hwritable] at hwhole
      cases hwhole
      have := mem_placed (c := c.toCodec) 0 before after e
      rw [Nat.zero_add] at this
      rw [heq]
      exact this
    have hnodup : (drain (recordParser c.toCodec) contents.bytes bound 0).Nodup := by
      apply hsorted.imp
      intro r r' hlt heq
      rw [heq] at hlt
      exact Nat.lt_irrefl _ hlt
    have hsublist := List.sublist_of_subperm_of_pairwise (List.subperm_of_subset hnodup hsub)
      hsorted (placed_sorted 0 hentries.writable)
    have := hsublist.map Prod.snd
    rw [map_snd_placed] at this
    exact this

end Chickadee
