import Chickadee.Lemmas.Merge

/-!
This module contains what a compaction does to the directory, whatever the files hold: it merges what
can be read from them into new files, and then deletes the files that were there before, the newest
first.
-/

namespace Chickadee

open Faulty Faulty.Io Layers KWay

variable {σ : Type} {T : Disk → Prop} (c : Crates)

-- `d'` is `d` with a new file for each of `tables`, the last one first
inductive Added (d : Disk) : List (List Entry) → Disk → Prop where
  | refl : Added d [] d
  | flush {tables : List (List Entry)} {d' : Disk} (h : Added d tables d') {memtable : MemTable}
    {new : Contents} (hholds : memtable.Holds (Serializable c.toCodec))
    (hnonempty : memtable.isEmpty = false) (hsmall : memtable.len * 10 < 2 ^ 32)
    (hfresh : nextName d' ∉ d'.sstables.keys) (hnew : new.bytes = image c memtable.values) :
    Added d (memtable.values :: tables) (d'.tick.write (.sstable (nextName d')) new)

def NamesFresh (T : Disk → Prop) (d : Disk) : Prop :=
  ∀ tables d' new, Added c d tables d' → T (d'.tick.write (.sstable (nextName d')) new) →
    nextName d' ∉ d'.sstables.keys

variable {c}

theorem Added.unchanged {tables : List (List Entry)} {d d' : Disk} (h : Added c d tables d') :
    Unchanged d d' := by
  induction h with
  | refl =>
    intro name _
    rfl
  | @flush tables d1 _ memtable new _ _ _ hfresh _ ih =>
    intro name hname
    have hne : name ≠ nextName d1 := by
      intro heq
      apply hfresh
      rw [← heq]
      exact Unchanged.mem_keys ih hname
    rw [← ih name hname]
    exact (SortedMap.get?_insert _ _ _ _).trans (if_neg hne)

theorem Added.of_mem {tables : List (List Entry)} {d d' : Disk} (h : Added c d tables d') :
    ∀ table ∈ tables, table.Pairwise (fun e e' => e.key < e'.key) ∧ table.length * 10 < 2 ^ 32 := by
  induction h with
  | refl => simp
  | @flush tables d1 _ memtable _ _ _ hsmall _ _ ih =>
    intro table htable
    cases List.mem_cons.mp htable with
    | inl heq =>
      rw [heq, MemTable.length_values]
      exact ⟨MemTable.values_pairwise memtable, hsmall⟩
    | inr hmem => exact ih table hmem

theorem Added.named {tables : List (List Entry)} {d d' : Disk} (h : Added c d tables d')
    (hnamed : Named d) : Named d' := by
  induction h with
  | refl => exact hnamed
  | flush _ _ _ _ _ _ ih => exact ih.write _

-- the files and the memtable hold what has been emitted, in chunks of consecutive entries
def Chunks (tables : List (List Entry)) (memtable : MemTable) (out : List Entry) : Prop :=
  ∃ chunks last, out = chunks.reverse.flatten ++ last ∧ List.Forall₂ List.Perm tables chunks
    ∧ memtable.values.Perm last

namespace Chunks

variable {tables : List (List Entry)} {memtable : MemTable} {out : List Entry}

theorem init : Chunks [] .new [] :=
  ⟨[], [], rfl, List.Forall₂.nil, List.Perm.refl _⟩

theorem flush (h : Chunks tables memtable out) : Chunks (memtable.values :: tables) .new out := by
  rcases h with ⟨chunks, last, rfl, hchunks, hlast⟩
  refine ⟨last :: chunks, [], ?_, List.Forall₂.cons hlast hchunks, List.Perm.refl _⟩
  simp

theorem processed (h : Chunks tables memtable out) {entry : Entry}
    (hnew : memtable.get entry.key = none) :
    Chunks tables (memtable.processed c entry) (out ++ [entry]) := by
  rcases h with ⟨chunks, last, rfl, hchunks, hlast⟩
  refine ⟨chunks, last ++ [entry], by rw [List.append_assoc], hchunks, ?_⟩
  have hperm := SortedMap.values_insert_perm entry hnew
  exact hperm.trans ((hlast.cons entry).trans (List.perm_append_singleton _ _).symm)

theorem of_isEmpty (h : Chunks tables memtable out) (hempty : memtable.isEmpty = true) :
    Chunks tables .new out := by
  rcases h with ⟨chunks, last, rfl, hchunks, hlast⟩
  refine ⟨chunks, last, rfl, hchunks, ?_⟩
  have hvalues : memtable.values = [] := by
    rw [List.eq_nil_iff_forall_not_mem]
    intro entry hentry
    rw [MemTable.mem_values_iff, MemTable.get_of_isEmpty hempty] at hentry
    contradiction
  rw [hvalues] at hlast
  exact hlast

theorem perm (h : Chunks tables memtable out) :
    (tables.reverse.flatten ++ memtable.values).Perm out := by
  rcases h with ⟨chunks, last, rfl, hchunks, hlast⟩
  apply List.Perm.append _ hlast
  apply ((List.reverse_perm tables).flatten).trans
  apply List.Perm.trans _ (List.reverse_perm chunks).flatten.symm
  induction hchunks with
  | nil => exact List.Perm.refl _
  | cons hperm _ ih =>
    rw [List.flatten_cons, List.flatten_cons]
    exact hperm.append ih

theorem mem_iff (h : Chunks tables memtable out) (entry : Entry) :
    (∃ s ∈ memtable.values :: tables, entry ∈ s) ↔ entry ∈ out := by
  rw [← h.perm.mem_iff, List.mem_append, List.mem_flatten]
  simp only [List.mem_reverse, List.mem_cons, exists_eq_or_imp]
  exact Or.comm

end Chunks

-- the size of the memtable bounds the number of its keys, of which one may be empty
def MemTable.Counted (memtable : MemTable) : Prop :=
  memtable.len ≤ memtable.size + if (memtable.get "").isSome then 1 else 0

theorem MemTable.counted_new : MemTable.new.Counted :=
  Nat.zero_le _

theorem length_bytesOf_pos {key : String} (h : key ≠ "") : 0 < (bytesOf key).length := by
  apply Nat.pos_of_ne_zero
  intro hzero
  apply h
  have hsize : key.utf8ByteSize = 0 := hzero
  exact String.utf8ByteSize_eq_zero_iff.mp hsize

theorem le_sizeOf {entry : Entry} (h : Serializable c.toCodec entry) :
    min (bytesOf entry.key).length u64Max ≤ MemTable.sizeOf c entry := by
  rcases h with ⟨payload, h, -⟩
  simp only [MemTable.sizeOf, MemTable.entrySize, h, saturatingAdd]
  omega

theorem MemTable.Counted.processed {memtable : MemTable} (h : memtable.Counted) {entry : Entry}
    (hentry : Serializable c.toCodec entry) (hnew : memtable.get entry.key = none)
    (hsize : memtable.size ≤ flushThresholdMb * 2 ^ 20) :
    (memtable.processed c entry).Counted
      ∧ (memtable.processed c entry).len ≤ flushThresholdMb * 2 ^ 20 + 2 := by
  have hle : (memtable.processed c entry).len ≤ memtable.len + 1 := SortedMap.size_insert_le _ _ _
  have hsize' : (memtable.processed c entry).size
      = min (memtable.size + MemTable.sizeOf c entry) u64Max := by
    unfold MemTable.get at hnew
    simp only [MemTable.processed, MemTable.store, hnew, saturatingAdd]
  have hsizeOf := le_sizeOf hentry
  unfold Counted at *
  rw [MemTable.get_processed]
  by_cases hkey : entry.key = ""
  . rw [hkey] at hnew
    rw [hnew] at h
    rw [if_pos hkey.symm]
    simp only [Option.isSome_none, Bool.false_eq_true, ↓reduceIte, Option.isSome_some] at h ⊢
    unfold flushThresholdMb u64Max at *
    omega
  . rw [if_neg (Ne.symm hkey)]
    have hpos := length_bytesOf_pos hkey
    unfold flushThresholdMb u64Max at *
    split at h <;> rename_i hsome <;> simp only [hsome, ↓reduceIte] <;> omega

/-! The loop -/

-- the state of the merge at the head of its loop
structure Rolling (c : Crates) (d d' : Disk) (start streams tables : List (List Entry))
    (memtable : MemTable) (seenKeys : List String) : Prop where
  added : Added c d tables d'
  merge : ∃ out, Merge Entry.key Entry.isSet start streams seenKeys out ∧ Chunks tables memtable out
  holds : memtable.Holds (Serializable c.toCodec)
  counted : memtable.Counted
  len_le : memtable.len ≤ flushThresholdMb * 2 ^ 20 + 2

namespace Rolling

variable {d d' : Disk} {start streams tables : List (List Entry)} {memtable : MemTable}
variable {seenKeys : List String}

theorem init : Rolling c d d start start [] .new [] :=
  ⟨Added.refl, ⟨[], Merge.start, Chunks.init⟩, MemTable.holds_new _, MemTable.counted_new,
    Nat.zero_le _⟩

theorem of_isEmpty (h : Rolling c d d' start streams tables memtable seenKeys)
    (hempty : memtable.isEmpty = true) : Rolling c d d' start streams tables .new seenKeys := by
  rcases h.merge with ⟨out, hmerge, hchunks⟩
  exact ⟨h.added, ⟨out, hmerge, hchunks.of_isEmpty hempty⟩, MemTable.holds_new _,
    MemTable.counted_new, Nat.zero_le _⟩

theorem small (h : Rolling c d d' start streams tables memtable seenKeys) :
    memtable.len * 10 < 2 ^ 32 := by
  have := h.len_le
  unfold flushThresholdMb at this
  omega

theorem drop (h : Rolling c d d' start streams tables memtable seenKeys) :
    Rolling c d d' start (streams.filter fun s => s.head?.isSome) tables memtable seenKeys := by
  rcases h.merge with ⟨out, hmerge, hchunks⟩
  exact ⟨h.added, ⟨out, hmerge.drop, hchunks⟩, h.holds, h.counted, h.len_le⟩

theorem round (h : Rolling c d d' start streams tables memtable seenKeys) {min : String}
    (hleast : Least Entry.key min streams) {entry : Entry}
    (hwinner : winner Entry.key min streams = some entry)
    (hentry : Serializable c.toCodec entry) (hsize : memtable.size ≤ flushThresholdMb * 2 ^ 20) :
    Rolling c d d' start (streams.map (advance Entry.key min)) tables
      (settled c memtable seenKeys entry) (seenKeys.insert min) := by
  rcases h.merge with ⟨out, hmerge, hchunks⟩
  have hkey := (hmerge.exists_of_winner hwinner).1
  have hround := hmerge.round hleast hwinner
  unfold settled
  rw [hkey]
  split
  . next hnew =>
    rw [if_pos hnew] at hround
    -- the key of an entry of the memtable has been dealt with
    have hget : memtable.get entry.key = none := by
      cases hget : memtable.get entry.key with
      | none => rfl
      | some old =>
        have hold := MemTable.key_of_get hget
        have hmem : old ∈ out := by
          rw [← hchunks.mem_iff]
          refine ⟨_, List.mem_cons_self, ?_⟩
          rw [MemTable.mem_values_iff, hold, hget]
        apply absurd _ hnew.1
        rw [← hkey, ← hold]
        exact (hmerge.of_mem old hmem).2.1
    have hcounted := h.counted.processed hentry hget hsize
    exact ⟨h.added, ⟨_, hround, hchunks.processed hget⟩, h.holds.processed hentry, hcounted.1,
      hcounted.2⟩
  . next hold =>
    rw [if_neg hold] at hround
    exact ⟨h.added, ⟨out, hround, hchunks⟩, h.holds, h.counted, h.len_le⟩

theorem flush (h : Rolling c d d' start streams tables memtable seenKeys)
    (hnonempty : memtable.isEmpty = false) {new : Contents}
    (hnew : new.bytes = image c memtable.values) (hfresh : nextName d' ∉ d'.sstables.keys) :
    Rolling c d (d'.tick.write (.sstable (nextName d')) new) start streams
      (memtable.values :: tables) .new seenKeys := by
  rcases h.merge with ⟨out, hmerge, hchunks⟩
  exact ⟨h.added.flush h.holds hnonempty h.small hfresh hnew, ⟨out, hmerge, hchunks.flush⟩,
    MemTable.holds_new _, MemTable.counted_new, Nat.zero_le _⟩

theorem wp_flush {m : Machine Call Disk σ}
    (h : Rolling c d m.disk start streams tables memtable seenKeys) (hT : NamesFresh c T d)
    (hnonempty : memtable.isEmpty = false) {Q : Unit × MemTable → Machine Call Disk σ → Prop}
    {E : Failure Error → Machine Call Disk σ → Prop}
    (hok : ∀ m', Extends m m' →
      Rolling c d m'.disk start streams (memtable.values :: tables) .new seenKeys → Q ((), .new) m')
    (hfail : ∀ e m', Extends m m' → FlushLeft c memtable m.disk m'.disk →
      (e = .fault ∨ e = .raised .fileTooLarge) → E e m') :
    wp T (on memtable (MemTable.flushTo c)) Q E m := by
  apply wp_on
  apply wp_conclude
  apply wp_flushTo h.holds
  . intro hempty
    rw [Machine.withSelf_self, hnonempty] at hempty
    contradiction
  . intro m1 new hm1 _ hnew _ hdisk1 hself1 hm1'
    rw [Machine.withSelf_disk] at hdisk1
    rw [Machine.withSelf_self] at hnew
    have hT1 := hm1'.1
    rw [hdisk1] at hT1
    have hflushed := h.flush hnonempty hnew (hT _ _ _ h.added hT1)
    rw [← hdisk1] at hflushed
    rw [hself1]
    exact hok _ (hm1.of_withSelf.withSelf _) hflushed
  . intro e m1 hm1 hleft _ he _
    apply hfail e _ (hm1.of_withSelf.withSelf _) hleft
    rw [Machine.withSelf_self] at he
    rcases he with he | he | hlong
    . exact Or.inl he
    . exact Or.inr he
    . exact absurd hlong (Nat.not_le.mpr h.small)

end Rolling

-- what holds of the files and of the memtable at the head of the loop, and so on
def Steady (c : Crates) (d : Disk) (start : List (List Entry))
    (P : List (List Entry) → MemTable → Prop) : Prop :=
  ∀ {d' streams tables memtable seenKeys min entry},
    Rolling c d d' start streams tables memtable seenKeys → P tables memtable →
    Least Entry.key min streams → winner Entry.key min streams = some entry →
    memtable.size ≤ flushThresholdMb * 2 ^ 20 →
    if (settled c memtable seenKeys entry).shouldFlush = true then
      P ((settled c memtable seenKeys entry).values :: tables) .new
    else
      P tables (settled c memtable seenKeys entry)

theorem steady_true {d : Disk} {start : List (List Entry)} : Steady c d start fun _ _ => True := by
  unfold Steady
  intros
  split <;> trivial

/--
The loop merges the streams, whatever they are.
-/
theorem wp_mergeLoop_of_steady {d : Disk} {start : List (List Entry)}
    {P : List (List Entry) → MemTable → Prop} (hP : Steady c d start P)
    (hserializable : ∀ s ∈ start, ∀ entry ∈ s, Serializable c.toCodec entry)
    (hT : NamesFresh c T d) (fuel : Nat) {cursors : List Cursor}
    {streams tables : List (List Entry)} {memtable : MemTable} {seenKeys : List String}
    {Q : MemTable → Machine Call Disk σ → Prop} {E : Failure Error → Machine Call Disk σ → Prop}
    {m : Machine Call Disk σ}
    (h : Rolling c d m.disk start streams tables memtable seenKeys) (hinv : P tables memtable)
    (hcursors : List.Forall₂ (CursorOn c d) cursors streams)
    (hfuel : (streams.map List.length).sum < fuel)
    (hsize : memtable.size ≤ flushThresholdMb * 2 ^ 20)
    (hok : ∀ memtable' m' streams' tables' seenKeys', Extends m m' →
      Rolling c d m'.disk start streams' tables' memtable' seenKeys' → P tables' memtable' →
      (∀ s ∈ streams', s = []) → Q memtable' m')
    (hfail : ∀ e m' d' streams' tables' memtable' seenKeys', Extends m m' →
      Rolling c d d' start streams' tables' memtable' seenKeys' →
      FlushLeft c memtable' d' m'.disk → (e = .fault ∨ e = .raised .fileTooLarge) → E e m') :
    wp T (mergeLoop c fuel cursors memtable seenKeys) Q E m := by
  induction fuel generalizing m cursors streams tables memtable seenKeys with
  | zero => exact absurd hfuel (Nat.not_lt_zero _)
  | succ fuel ih =>
    have h := h.drop
    have hcursors := forall₂_filter hcursors
    have hfuel : ((streams.filter fun s => s.head?.isSome).map List.length).sum < fuel + 1 := by
      apply Nat.lt_of_le_of_lt _ hfuel
      exact (List.filter_sublist.map _).sum_le_sum (fun _ _ => Nat.zero_le _)
    generalize streams.filter (fun s => s.head?.isSome) = streams at h hcursors hfuel
    unfold mergeLoop
    dsimp only
    split
    . next hmin =>
      apply wp_pure
      exact hok memtable m streams tables seenKeys (Extends.refl m) h hinv
        (leastKey_eq_none_iff.mp (by rw [← minKey_eq hcursors, hmin]))
    . next min hmin =>
      rw [minKey_eq hcursors] at hmin
      rcases leastKey_eq_some hmin with ⟨hleast, entry, hwinner⟩
      have hentry : Serializable c.toCodec entry := by
        rcases h.merge with ⟨out, hmerge, -⟩
        rcases (hmerge.exists_of_winner hwinner).2 with ⟨s, hs, hmem⟩
        exact hserializable s hs entry hmem
      have hround := h.round hleast hwinner hentry hsize
      have hinv' := hP h hinv hleast hwinner hsize
      rcases answers_mergeRound m.self h.added.unchanged hcursors seenKeys hwinner h.holds
        hentry with ⟨cursors', hanswers, hcursors'⟩
      have hless := sum_advance_lt hwinner
      apply wp_bind
      apply hanswers T _ _ m rfl rfl
      . intro m1 hm1 _
        dsimp only
        rw [← hm1.disk_eq] at hround
        split
        . next hflush =>
          apply wp_bind
          apply wp_map
          apply hround.wp_flush hT (MemTable.isEmpty_of_shouldFlush hflush)
          . intro m2 hm2 hflushed
            have hm2 := hm1.later.trans hm2
            rw [if_pos hflush] at hinv'
            apply ih hflushed hinv' hcursors' (by omega) (Nat.zero_le _)
            . intro memtable' m' streams' tables' seenKeys' hm'
              exact hok memtable' m' streams' tables' seenKeys' (hm2.trans hm')
            . intro e m' d' streams' tables' memtable' seenKeys' hm'
              exact hfail e m' d' streams' tables' memtable' seenKeys' (hm2.trans hm')
          . intro e m2 hm2 hleft
            exact hfail e m2 _ _ _ _ _ (hm1.later.trans hm2) hround hleft
        . next hflush =>
          rw [if_neg hflush] at hinv'
          apply ih hround hinv' hcursors' (by omega) (MemTable.not_shouldFlush_iff.mp hflush)
          . intro memtable' m' streams' tables' seenKeys' hm'
            exact hok memtable' m' streams' tables' seenKeys' (hm1.later.trans hm')
          . intro e m' d' streams' tables' memtable' seenKeys' hm'
            exact hfail e m' d' streams' tables' memtable' seenKeys' (hm1.later.trans hm')
      . intro m' hm'
        apply hfail .fault m' m.disk _ _ _ _ hm'.later h _ (Or.inl rfl)
        rw [hm'.disk_eq]
        exact FlushLeft.unchanged

def tableStreams (ps : List (String × Contents)) : List (List Entry) :=
  ps.filterMap fun p => (openTable c p.2).map fun table => recordsFrom c p.2 table.2 0

theorem first_tableStreams (ps : List (String × Contents)) (key : String) :
    first Entry.key (tableStreams (c := c) ps) key = newest (ps.map fun p => layer c p.2) key := by
  induction ps with
  | nil => rfl
  | cons p ps ih =>
    have hscan : (layer c p.2).scan key = KWay.find Entry.key (fileScan c p.2) key := rfl
    rw [tableStreams, List.filterMap_cons, List.map_cons, newest_cons, ← ih, hscan, fileScan]
    cases openTable c p.2 with
    | none => rfl
    | some table => rw [Option.map_some, first_cons]; rfl

theorem mem_tableStreams {ps : List (String × Contents)} {s : List Entry}
    (h : s ∈ tableStreams (c := c) ps) : ∃ p ∈ ps, s = fileScan c p.2 := by
  rw [tableStreams, List.mem_filterMap] at h
  rcases h with ⟨p, hp, hs⟩
  rw [Option.map_eq_some_iff] at hs
  rcases hs with ⟨table, hopen, rfl⟩
  exact ⟨p, hp, (fileScan_of_openTable hopen).symm⟩

def Opened (c : Crates) (d : Disk) (sstable : SSTable) (s : List Entry) : Prop :=
  ∃ name ∈ d.sstables.keys, sstable.file = ⟨.sstable name, 0⟩
    ∧ recordsFrom c (d.read (.sstable name)) sstable.bloomFilterPos 0 = s

theorem answers_openTables {d : Disk} (self : σ) (ps : List (String × Contents))
    (h : ∀ p ∈ ps, d.sstables.get? p.1 = some p.2) :
    ∃ sstables, Answers (openTables c (ps.map Prod.fst)) d self sstables self
      ∧ List.Forall₂ (Opened c d) sstables (tableStreams (c := c) ps) := by
  have hopts : ∃ opts : List (Option SSTable),
      Answers ((ps.map Prod.fst).mapM (SSTable.fromPath c)) d self opts self
        ∧ List.Forall₂ (Opened c d) opts.reduceOption (tableStreams (c := c) ps) := by
    induction ps with
    | nil => exact ⟨[], Answers.pure _, List.Forall₂.nil⟩
    | cons p ps ih =>
      rcases ih fun p hp => h p (List.mem_cons_of_mem _ hp) with ⟨opts, hanswers, hopened⟩
      have hp := h p List.mem_cons_self
      have hread : d.read (.sstable p.1) = p.2 := by
        change (d.sstables.get? p.1).getD .empty = p.2
        rw [hp]
        rfl
      refine ⟨(openTable c p.2).map (fun table => ⟨table.1, table.2, ⟨.sstable p.1, 0⟩⟩) :: opts,
        ?_, ?_⟩
      . rw [List.map_cons, List.mapM_cons]
        exact Answers.bind (answers_fromPath hp) (Answers.bind hanswers (Answers.pure _))
      . rw [tableStreams, List.filterMap_cons]
        cases openTable c p.2 with
        | none => exact hopened
        | some table =>
          refine List.Forall₂.cons ?_ hopened
          exact ⟨p.1, SortedMap.mem_keys_of_get? hp, rfl, by rw [hread]⟩
  rcases hopts with ⟨opts, hanswers, hopened⟩
  exact ⟨opts.reduceOption, Answers.bind hanswers (Answers.pure _), hopened⟩

theorem answers_firstEntries {d : Disk} (self : σ) {sstables : List SSTable}
    {streams : List (List Entry)} (h : List.Forall₂ (Opened c d) sstables streams) :
    ∃ cursors, Answers (sstables.mapM fun sstable => on sstable (SSTable.readNextEntry c)) d self
        cursors self
      ∧ List.Forall₂ (CursorOn c d) cursors streams
      ∧ (streams.map List.length).sum ≤ (sstables.map SSTable.fuel).sum := by
  induction h with
  | nil => exact ⟨[], Answers.pure _, List.Forall₂.nil, Nat.le_refl _⟩
  | @cons sstable s sstables streams hopened _ ih =>
    rcases ih with ⟨cursors, hanswers, hcursors, hsum⟩
    rcases hopened with ⟨name, hname, hfile, hs⟩
    rcases sstable with ⟨filter, bound, file⟩
    dsimp only at hfile hs
    subst hfile
    have hnext := answers_readNextEntry (c := c) filter bound 0
      (rfl : d.read (.sstable name) = _)
    rw [hs] at hnext
    refine ⟨(s.head?, ⟨filter, bound, ⟨.sstable name, nextPos c (d.read (.sstable name)) bound 0⟩⟩)
      :: cursors, ?_, List.Forall₂.cons ⟨name, hname, _, rfl, rfl, ?_⟩ hcursors, ?_⟩
    . rw [List.mapM_cons]
      exact Answers.bind (Answers.on hnext) (Answers.bind hanswers (Answers.pure _))
    . dsimp only
      rw [recordsFrom_nextPos, hs]
    . have := length_recordsFrom_lt (c := c) (d.read (.sstable name)) filter bound 0
        ⟨.sstable name, 0⟩
      rw [hs] at this
      simp only [List.map_cons, List.sum_cons]
      omega

def removeAll (names : List String) (d : Disk) : Disk :=
  names.foldl Disk.remove d

theorem wp_removeAll (names : List String) {Q : Unit → Machine Call Disk σ → Prop}
    {E : Failure Error → Machine Call Disk σ → Prop} {m : Machine Call Disk σ}
    (hnodup : names.Nodup) (hnames : ∀ name ∈ names, name ∈ m.disk.sstables.keys)
    (hok : ∀ m', Extends m m' → m'.disk = removeAll names m.disk → Q () m')
    (hfail : ∀ m' done name, Extends m m' → done ++ [name] <+: names →
      m'.disk = removeAll done m.disk → m'.FailedAt (.removeFile name) → E .fault m') :
    wp T (names.forM removeFile) Q E m := by
  induction names generalizing m with
  | nil =>
    apply wp_pure
    exact hok m (Extends.refl m) rfl
  | cons name names ih =>
    rw [List.nodup_cons] at hnodup
    apply wp_bind
    apply wp_removeFile (hnames name List.mem_cons_self)
    . intro m1 hm1 hdisk1 _
      apply ih hnodup.2
      . intro name' hname'
        have hne : name' ≠ name := fun heq => hnodup.1 (heq ▸ hname')
        have hget : m1.disk.sstables.get? name' = m.disk.sstables.get? name' := by
          rw [hdisk1]
          exact (SortedMap.get?_erase _ _ _).trans (if_neg hne)
        exact (SortedMap.mem_keys_iff_of_get? hget).mpr (hnames name' (List.mem_cons_of_mem _ hname'))
      . intro m' hm' hdisk'
        apply hok m' (hm1.trans hm')
        rw [hdisk', hdisk1]
        rfl
      . intro m' done name' hm' hdone hdisk'
        apply hfail m' (name :: done) name' (hm1.trans hm') ((List.prefix_cons_inj name).mpr hdone)
        rw [hdisk', hdisk1]
        rfl
    . intro m' hm' hfailed
      refine hfail m' [] name hm'.later ?_ hm'.disk_eq hfailed
      exact (List.prefix_cons_inj name).mpr List.nil_prefix

/-! The compaction -/

def streamsOf (c : Crates) (d : Disk) : List (List Entry) :=
  tableStreams (c := c) d.sstables.entries.reverse

theorem comesUp_files (d : Disk) (key : String) :
    comesUp Entry.key key (streamsOf c d)
      = comesUp Entry.key key ((files d).map (fileScan c)) := by
  unfold streamsOf files tableStreams
  apply comesUp_congr
  induction d.sstables.entries.reverse with
  | nil => rfl
  | cons p ps ih =>
    simp only [List.map_cons, List.filterMap_cons]
    have hscan : fileScan c p.2
        = ((openTable c p.2).map fun table => recordsFrom c p.2 table.2 0).getD [] := by
      unfold fileScan
      cases openTable c p.2 <;> rfl
    rw [hscan]
    cases openTable c p.2 with
    | none => exact ih
    | some table =>
      simp only [Option.map_some, Option.getD_some, List.filter_cons]
      rw [ih]

-- `d'` is `d` with what the merge of the files has emitted so far, but for what is in the memtable
def Begun (c : Crates) (tables : List (List Entry)) (memtable : MemTable) (d d' : Disk) : Prop :=
  ∃ streams seenKeys, Rolling c d d' (streamsOf c d) streams tables memtable seenKeys

-- `d'` is `d` with the merge of the files
def MergedInto (c : Crates) (tables : List (List Entry)) (d d' : Disk) : Prop :=
  ∃ streams seenKeys, Rolling c d d' (streamsOf c d) streams tables .new seenKeys
    ∧ ∀ s ∈ streams, s = []

/--
The new files hold what is emitted: the keys that do not come up with a tombstone, with the entries they
come up with.
-/
theorem MergedInto.emitted {d d' : Disk} {tables : List (List Entry)} (h : MergedInto c tables d d') :
    ∃ out, (∀ entry, (∃ s ∈ tables, entry ∈ s) ↔ entry ∈ out) ∧ (out.map Entry.key).Nodup
      ∧ (∀ entry ∈ out, ∃ s ∈ streamsOf c d, entry ∈ s)
      ∧ ∀ key, KWay.find Entry.key out key
        = (comesUp Entry.key key (streamsOf c d)).filter Entry.isSet := by
  rcases h with ⟨streams, seenKeys, hrolling, hnil⟩
  rcases hrolling.merge with ⟨out, hmerge, hchunks⟩
  refine ⟨out, ?_, hmerge.nodup, fun entry hentry => (hmerge.of_mem entry hentry).2.2,
    hmerge.find_eq hnil⟩
  intro entry
  rw [← hchunks.mem_iff]
  constructor
  . rintro ⟨s, hs, hentry⟩
    exact ⟨s, List.mem_cons_of_mem _ hs, hentry⟩
  . rintro ⟨s, hs, hentry⟩
    cases List.mem_cons.mp hs with
    | inl heq =>
      rw [heq] at hentry
      contradiction
    | inr hs => exact ⟨s, hs, hentry⟩

-- a compaction up to the deletion of the files that it returns
def mergeTables (c : Crates) : Os σ (List String) := do
  let entries := sortNewestFirst (← readDir)
  let sstables ← openTables c entries
  let cursors ← sstables.mapM fun sstable => on sstable (SSTable.readNextEntry c)
  let memtable ← mergeLoop c (mergeFuel sstables) cursors .new []
  if !memtable.isEmpty then
    let _ ← on memtable (MemTable.flushTo c)
  return entries

theorem compact_eq : (compact c : Os σ Unit)
    = mergeTables c >>= fun toDelete => toDelete.forM removeFile := by
  unfold compact mergeTables
  simp only [bind_assoc]
  congr 1
  funext names
  congr 1
  funext sstables
  congr 1
  funext cursors
  congr 1
  funext memtable
  split
  . simp only [bind_assoc, pure_bind]
  . simp only [pure_bind]

theorem wp_mergeTables {Q : List String → Machine Call Disk σ → Prop}
    {E : Failure Error → Machine Call Disk σ → Prop} {m : Machine Call Disk σ}
    (R : MemTable → Machine Call Disk σ → Prop)
    (hmerge : ∀ m1 sstables cursors, Reads m m1 →
      List.Forall₂ (CursorOn c m.disk) cursors (streamsOf c m.disk) →
      ((streamsOf c m.disk).map List.length).sum < mergeFuel sstables →
      wp T (mergeLoop c (mergeFuel sstables) cursors .new []) R E m1)
    (hflush : ∀ memtable m1, R memtable m1 → memtable.isEmpty = false →
      wp T (on memtable (MemTable.flushTo c)) (fun _ m2 => Q m.disk.sstables.keys.reverse m2) E m1)
    (hdone : ∀ memtable m1, R memtable m1 → memtable.isEmpty = true →
      Q m.disk.sstables.keys.reverse m1)
    (hread : ∀ m', Reads m m' → E .fault m') : wp T (mergeTables c) Q E m := by
  have hget : ∀ p ∈ m.disk.sstables.entries.reverse, m.disk.sstables.get? p.1 = some p.2 := by
    intro p hp
    rw [SortedMap.get?_eq_some_iff]
    exact List.mem_reverse.mp hp
  have hkeys : m.disk.sstables.keys.reverse = m.disk.sstables.entries.reverse.map Prod.fst := by
    rw [SortedMap.keys, List.map_reverse]
  rcases answers_openTables m.self _ hget with ⟨sstables, hopen, hopened⟩
  rw [← hkeys] at hopen
  rcases answers_firstEntries m.self hopened with ⟨cursors, hfirst, hcursors, hsum⟩
  unfold mergeTables
  apply wp_bind
  apply wp_readDir
  . intro m1 hm1 hself1
    dsimp only
    rw [sortNewestFirst_eq m.disk.sstables.keys_sorted]
    apply wp_bind
    apply hopen T _ _ m1 hm1.disk_eq hself1
    . intro m2 hm2 hself2
      have hm2 := hm1.trans hm2
      apply wp_bind
      apply hfirst T _ _ m2 hm2.disk_eq hself2
      . intro m3 hm3 _
        apply wp_bind
        apply wp_mono (hmerge m3 sstables cursors (hm2.trans hm3) hcursors (Nat.lt_succ_of_le hsum))
        . intro memtable m4 _ hR
          split
          . next hnonempty =>
            apply wp_bind
            apply wp_mono (hflush memtable m4 hR (by simpa using hnonempty))
            . intro _ m5 _ hQ
              exact wp_pure hQ
            . intro e m5 _ _ hE
              exact hE
          . next hempty =>
            apply wp_pure
            exact hdone memtable m4 hR (by simpa using hempty)
        . intro e m' _ _ hE
          exact hE
      . intro m' hm'
        exact hread m' (hm2.trans hm')
    . intro m' hm'
      exact hread m' (hm1.trans hm')
  . intro m' hm' _
    exact hread m' hm'

theorem wp_compact_of_merge {Q : Unit → Machine Call Disk σ → Prop}
    {E : Failure Error → Machine Call Disk σ → Prop} {m : Machine Call Disk σ}
    (R : MemTable → Machine Call Disk σ → Prop)
    (hmerge : ∀ m1 sstables cursors, Reads m m1 →
      List.Forall₂ (CursorOn c m.disk) cursors (streamsOf c m.disk) →
      ((streamsOf c m.disk).map List.length).sum < mergeFuel sstables →
      wp T (mergeLoop c (mergeFuel sstables) cursors .new []) R E m1)
    (hflush : ∀ memtable m1, R memtable m1 → memtable.isEmpty = false →
      wp T (on memtable (MemTable.flushTo c))
        (fun _ m2 => wp T (m.disk.sstables.keys.reverse.forM removeFile) Q E m2) E m1)
    (hdelete : ∀ memtable m1, R memtable m1 → memtable.isEmpty = true →
      wp T (m.disk.sstables.keys.reverse.forM removeFile) Q E m1)
    (hread : ∀ m', Reads m m' → E .fault m') : wp T (compact c) Q E m := by
  rw [compact_eq]
  apply wp_bind
  exact wp_mergeTables R hmerge hflush hdelete hread

theorem MergedInto.wp_delete {Q : Unit → Machine Call Disk σ → Prop}
    {E : Failure Error → Machine Call Disk σ → Prop} {m : Machine Call Disk σ} {d : Disk}
    {tables : List (List Entry)} (h : MergedInto c tables d m.disk)
    (hok : ∀ m', Extends m m' → m'.disk = removeAll d.sstables.keys.reverse m.disk → Q () m')
    (hfail : ∀ m' done name, Extends m m' → done ++ [name] <+: d.sstables.keys.reverse →
      m'.disk = removeAll done m.disk → m'.FailedAt (.removeFile name) → E .fault m') :
    wp T (d.sstables.keys.reverse.forM removeFile) Q E m := by
  apply wp_removeAll _ _ _ hok hfail
  . exact List.nodup_reverse.mpr (d.sstables.keys_sorted.imp ne_of_lt)
  . intro name hname
    rcases h with ⟨_, _, hrolling, -⟩
    exact hrolling.added.unchanged.mem_keys (List.mem_reverse.mp hname)

-- what holds of the files when the memtable has been written to the last one
def Finished (P : List (List Entry) → MemTable → Prop) (tables : List (List Entry)) : Prop :=
  ∃ tables' memtable, P tables' memtable
    ∧ tables = if memtable.isEmpty = true then tables' else memtable.values :: tables'

theorem wp_mergeTables_of_steady {Q : List String → Machine Call Disk σ → Prop}
    {E : Failure Error → Machine Call Disk σ → Prop} {m : Machine Call Disk σ}
    {P : List (List Entry) → MemTable → Prop} (hP : Steady c m.disk (streamsOf c m.disk) P)
    (hinv : P [] .new)
    (hserializable : ∀ s ∈ streamsOf c m.disk, ∀ entry ∈ s, Serializable c.toCodec entry)
    (hT : NamesFresh c T m.disk)
    (hok : ∀ m' tables, Extends m m' → MergedInto c tables m.disk m'.disk → Finished P tables →
      Q m.disk.sstables.keys.reverse m')
    (hbegun : ∀ e m' d' tables memtable, Extends m m' → Begun c tables memtable m.disk d' →
      FlushLeft c memtable d' m'.disk → (e = .fault ∨ e = .raised .fileTooLarge) → E e m') :
    wp T (mergeTables c) Q E m := by
  apply wp_mergeTables fun memtable m1 => Extends m m1 ∧ ∃ streams tables seenKeys,
    Rolling c m.disk m1.disk (streamsOf c m.disk) streams tables memtable seenKeys
      ∧ P tables memtable ∧ ∀ s ∈ streams, s = []
  . intro m1 sstables cursors hm1 hcursors hfuel
    have hinit : Rolling c m.disk m1.disk (streamsOf c m.disk) (streamsOf c m.disk) [] .new [] := by
      rw [hm1.disk_eq]
      exact Rolling.init
    apply wp_mergeLoop_of_steady hP hserializable hT _ hinit hinv hcursors hfuel (Nat.zero_le _)
    . intro memtable m2 streams tables seenKeys hm2 hrolling hinv2 hnil
      exact ⟨hm1.later.trans hm2, streams, tables, seenKeys, hrolling, hinv2, hnil⟩
    . intro e m2 d' streams tables memtable seenKeys hm2 hrolling hleft
      exact hbegun e m2 d' tables memtable (hm1.later.trans hm2) ⟨_, _, hrolling⟩ hleft
  . rintro memtable m1 ⟨hm1, streams, tables, seenKeys, hrolling, hinv1, hnil⟩ hnonempty
    apply hrolling.wp_flush hT hnonempty
    . intro m2 hm2 hflushed
      apply hok m2 _ (hm1.trans hm2) ⟨_, _, hflushed, hnil⟩
      exact ⟨tables, memtable, hinv1, by rw [hnonempty]; rfl⟩
    . intro e m2 hm2 hleft
      exact hbegun e m2 _ _ _ (hm1.trans hm2) ⟨_, _, hrolling⟩ hleft
  . rintro memtable m1 ⟨hm1, streams, tables, seenKeys, hrolling, hinv1, hnil⟩ hempty
    apply hok m1 tables hm1 ⟨_, _, hrolling.of_isEmpty hempty, hnil⟩
    exact ⟨tables, memtable, hinv1, by rw [hempty]; rfl⟩
  . intro m' hm'
    apply hbegun .fault m' m.disk [] .new hm'.later ⟨_, _, Rolling.init⟩ _ (Or.inl rfl)
    rw [hm'.disk_eq]
    exact FlushLeft.unchanged

/--
A compaction adds a merge of the files and then deletes them. If it fails, it has not got to the end
of the merge, or it has not deleted all of them.
-/
theorem wp_compact_of_steady {Q : Unit → Machine Call Disk σ → Prop}
    {E : Failure Error → Machine Call Disk σ → Prop} {m : Machine Call Disk σ}
    {P : List (List Entry) → MemTable → Prop} (hP : Steady c m.disk (streamsOf c m.disk) P)
    (hinv : P [] .new)
    (hserializable : ∀ s ∈ streamsOf c m.disk, ∀ entry ∈ s, Serializable c.toCodec entry)
    (hT : NamesFresh c T m.disk)
    (hok : ∀ m' d' tables, Extends m m' → MergedInto c tables m.disk d' → Finished P tables →
      m'.disk = removeAll m.disk.sstables.keys.reverse d' → Q () m')
    (hbegun : ∀ e m' d' tables memtable, Extends m m' → Begun c tables memtable m.disk d' →
      FlushLeft c memtable d' m'.disk → (e = .fault ∨ e = .raised .fileTooLarge) → E e m')
    (hdone : ∀ m' d' tables done name, Extends m m' → MergedInto c tables m.disk d' →
      done ++ [name] <+: m.disk.sstables.keys.reverse → m'.disk = removeAll done d' →
      m'.FailedAt (.removeFile name) → E .fault m') :
    wp T (compact c) Q E m := by
  rw [compact_eq]
  apply wp_bind
  apply wp_mergeTables_of_steady hP hinv hserializable hT _ hbegun
  intro m' tables hm' hmerged hfinished
  apply hmerged.wp_delete
  . intro m'' hm'' hdisk
    exact hok m'' m'.disk tables (hm'.trans hm'') hmerged hfinished hdisk
  . intro m'' done name hm'' hpart hdisk hfailed
    exact hdone m'' m'.disk tables done name (hm'.trans hm'') hmerged hpart hdisk hfailed

theorem wp_compact_of_serializable {Q : Unit → Machine Call Disk σ → Prop}
    {E : Failure Error → Machine Call Disk σ → Prop} {m : Machine Call Disk σ}
    (hserializable : ∀ s ∈ streamsOf c m.disk, ∀ entry ∈ s, Serializable c.toCodec entry)
    (hT : NamesFresh c T m.disk)
    (hok : ∀ m' d' tables, Extends m m' → MergedInto c tables m.disk d' →
      m'.disk = removeAll m.disk.sstables.keys.reverse d' → Q () m')
    (hbegun : ∀ e m' d' tables memtable, Extends m m' → Begun c tables memtable m.disk d' →
      FlushLeft c memtable d' m'.disk → (e = .fault ∨ e = .raised .fileTooLarge) → E e m')
    (hdone : ∀ m' d' tables done name, Extends m m' → MergedInto c tables m.disk d' →
      done ++ [name] <+: m.disk.sstables.keys.reverse → m'.disk = removeAll done d' →
      m'.FailedAt (.removeFile name) → E .fault m') :
    wp T (compact c) Q E m := by
  apply wp_compact_of_steady steady_true trivial hserializable hT _ hbegun hdone
  intro m' d' tables hm' hmerged _ hdisk
  exact hok m' d' tables hm' hmerged hdisk

theorem selfless_readCall {α : Type} {call : Call} {act : Disk → σ → Except Error α × σ}
    (hact : ∀ d s, (act d s).2 = s) : (readCall call act).Selfless :=
  Selfless.syscall hact fun _ _ _ => rfl

theorem selfless_readDir : (readDir : Os σ (List String)).Selfless :=
  selfless_readCall fun _ _ => rfl

theorem selfless_openFile (path : Path) : (openFile path : Os σ File).Selfless := by
  apply selfless_readCall
  intro d s
  split <;> rfl

theorem selfless_removeFile (name : String) : (removeFile name : Os σ Unit).Selfless := by
  apply Selfless.syscall
  . intro d s
    split <;> rfl
  . intros
    rfl

theorem selfless_fromPath (name : String) : (SSTable.fromPath c name : Os σ _).Selfless := by
  unfold SSTable.fromPath
  apply Selfless.bind (selfless_openFile _)
  intro file
  apply Selfless.bind (Selfless.on _ _)
  intro r
  split <;> exact Selfless.pure _

theorem selfless_mergeRound (min : String) (cursors : List Cursor) (memtable : MemTable)
    (seenKeys : List String) : (mergeRound c min cursors memtable seenKeys : Os σ _).Selfless := by
  induction cursors generalizing memtable seenKeys with
  | nil => exact Selfless.pure _
  | cons cursor cursors ih =>
    rcases cursor with ⟨entry, sstable⟩
    cases entry with
    | none => exact Selfless.bind (ih _ _) fun _ => Selfless.pure _
    | some entry =>
      unfold mergeRound
      split
      . split
        . apply Selfless.bind (Selfless.map (Selfless.on _ _))
          intro memtable
          exact Selfless.bind (Selfless.on _ _) fun _ =>
            Selfless.bind (ih _ _) fun _ => Selfless.pure _
        . apply Selfless.bind (Selfless.pure _)
          intro memtable
          exact Selfless.bind (Selfless.on _ _) fun _ =>
            Selfless.bind (ih _ _) fun _ => Selfless.pure _
      . exact Selfless.bind (ih _ _) fun _ => Selfless.pure _

theorem selfless_mergeLoop (fuel : Nat) (cursors : List Cursor) (memtable : MemTable)
    (seenKeys : List String) : (mergeLoop c fuel cursors memtable seenKeys : Os σ _).Selfless := by
  induction fuel generalizing cursors memtable seenKeys with
  | zero => exact Selfless.raise _
  | succ fuel ih =>
    unfold mergeLoop
    dsimp only
    split
    . exact Selfless.pure _
    . apply Selfless.bind (selfless_mergeRound _ _ _ _)
      rintro ⟨cursors', memtable', seenKeys'⟩
      dsimp only
      split
      . exact Selfless.bind (Selfless.map (Selfless.on _ _)) fun _ => ih _ _ _
      . exact Selfless.bind (Selfless.pure _) fun _ => ih _ _ _

theorem selfless_compact : (compact c : Os σ Unit).Selfless := by
  unfold compact
  apply Selfless.bind selfless_readDir
  intro names
  apply Selfless.bind
  . exact Selfless.bind (Selfless.mapM selfless_fromPath _) fun _ => Selfless.pure _
  . intro sstables
    apply Selfless.bind (Selfless.mapM (fun _ => Selfless.on _ _) _)
    intro cursors
    apply Selfless.bind (selfless_mergeLoop _ _ _ _)
    intro memtable
    split
    . exact Selfless.bind (Selfless.on _ _) fun _ => Selfless.forM selfless_removeFile _
    . exact Selfless.forM selfless_removeFile _

end Chickadee
