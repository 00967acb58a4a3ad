import Chickadee.Lib.KWay
import Chickadee.Lemmas.MemTable

/-!
This module contains the rounds of the merge in `compact`: on the entries that the cursors have not
returned yet, a round is one of `KWay`.
-/

namespace Chickadee

open Faulty Faulty.Io Layers KWay

variable {σ : Type} (c : Crates)

-- the entries the cursor stands before, the one it has read already included
def CursorOn (d : Disk) (cursor : Cursor) (s : List Entry) : Prop :=
  ∃ name ∈ d.sstables.keys, ∃ pos,
    cursor.1 = s.head?
      ∧ cursor.2.file = ⟨.sstable name, pos⟩
      ∧ recordsFrom c (d.read (.sstable name)) cursor.2.bloomFilterPos pos = s.tail

def Unchanged (d d' : Disk) : Prop :=
  ∀ name ∈ d.sstables.keys, d'.sstables.get? name = d.sstables.get? name

-- the winner of a round is processed, unless it is a tombstone or its key has been dealt with before
def settled (memtable : MemTable) (seenKeys : List String) (entry : Entry) : MemTable :=
  if entry.key ∉ seenKeys ∧ entry.isSet = true then memtable.processed c entry else memtable

variable {c}

theorem Unchanged.read {d d' : Disk} (h : Unchanged d d') {name : String}
    (hname : name ∈ d.sstables.keys) :
    d'.read (.sstable name) = d.read (.sstable name) := by
  unfold Disk.read Disk.get?
  dsimp only
  rw [h name hname]

theorem Unchanged.mem_keys {d d' : Disk} (h : Unchanged d d') {name : String}
    (hname : name ∈ d.sstables.keys) : name ∈ d'.sstables.keys :=
  (SortedMap.mem_keys_iff_of_get? (h name hname)).mpr hname

theorem CursorOn.answers_next {d d' : Disk} {cursor : Cursor} {s : List Entry} (hd : Unchanged d d')
    (h : CursorOn c d cursor s) {σ : Type} (self : σ) :
    ∃ cursor', Answers (on cursor.2 (SSTable.readNextEntry c)) d' self cursor' self
      ∧ CursorOn c d cursor' s.tail := by
  rcases h with ⟨name, hname, pos, hhead, hfile, htail⟩
  rcases cursor with ⟨entry, filter, bound, file⟩
  dsimp only at hfile htail
  subst hfile
  have hread : d'.read (.sstable name) = d.read (.sstable name) := hd.read hname
  have hnext := answers_readNextEntry (c := c) filter bound pos hread
  refine ⟨_, Answers.on hnext, name, hname, _, ?_, rfl, ?_⟩
  . rw [htail]
  . dsimp only
    rw [recordsFrom_nextPos, htail]

theorem answers_mergeRound_seen {d d' : Disk} (self : σ) (hd : Unchanged d d') (min : String)
    {cursors : List Cursor} {streams : List (List Entry)}
    (h : List.Forall₂ (CursorOn c d) cursors streams) (memtable : MemTable)
    {seenKeys : List String} (hseen : min ∈ seenKeys) :
    ∃ cursors', Answers (mergeRound c min cursors memtable seenKeys) d' self
        (cursors', memtable, seenKeys) self
      ∧ List.Forall₂ (CursorOn c d) cursors' (streams.map (advance Entry.key min)) := by
  induction h with
  | nil => exact ⟨[], Answers.pure _, List.Forall₂.nil⟩
  | @cons cursor s cursors streams hcursor hrest ih =>
    rcases ih with ⟨cursors', hanswers, hcursors'⟩
    have hnext := hcursor.answers_next hd self
    rcases cursor with ⟨head, sstable⟩
    have hhead : head = s.head? := by
      rcases hcursor with ⟨_, _, _, hhead, _⟩
      exact hhead
    cases s with
    | nil =>
      subst hhead
      refine ⟨_, ?_, List.Forall₂.cons hcursor hcursors'⟩
      rw [List.head?_nil, mergeRound]
      exact Answers.bind hanswers (Answers.pure _)
    | cons entry s =>
      subst hhead
      rw [List.head?_cons, mergeRound, List.map_cons, advance_cons]
      split
      . next hkey =>
        rcases hnext with ⟨cursor', hnext, hcursor'⟩
        refine ⟨cursor' :: cursors', ?_, List.Forall₂.cons hcursor' hcursors'⟩
        rw [if_neg (fun h => h.1 hseen), List.insert_of_mem hseen]
        apply Answers.bind (Answers.pure _)
        apply Answers.bind hnext
        exact Answers.bind hanswers (Answers.pure _)
      . next hkey =>
        refine ⟨(some entry, sstable) :: cursors', ?_, List.Forall₂.cons hcursor hcursors'⟩
        exact Answers.bind hanswers (Answers.pure _)

theorem answers_mergeRound {d d' : Disk} (self : σ) (hd : Unchanged d d') {min : String}
    {cursors : List Cursor} {streams : List (List Entry)}
    (h : List.Forall₂ (CursorOn c d) cursors streams) {memtable : MemTable}
    (seenKeys : List String) {entry : Entry} (hwinner : winner Entry.key min streams = some entry)
    (hholds : memtable.Holds (Serializable c.toCodec)) (hentry : Serializable c.toCodec entry) :
    ∃ cursors', Answers (mergeRound c min cursors memtable seenKeys) d' self
        (cursors', settled c memtable seenKeys entry, seenKeys.insert min) self
      ∧ List.Forall₂ (CursorOn c d) cursors' (streams.map (advance Entry.key min)) := by
  induction h with
  | nil => contradiction
  | @cons cursor s cursors streams hcursor hrest ih =>
    have hnext := hcursor.answers_next hd self
    rcases cursor with ⟨head, sstable⟩
    have hhead : head = s.head? := by
      rcases hcursor with ⟨_, _, _, hhead, _⟩
      exact hhead
    cases s with
    | nil =>
      subst hhead
      rcases ih hwinner with ⟨cursors', hanswers, hcursors'⟩
      refine ⟨_, ?_, List.Forall₂.cons hcursor hcursors'⟩
      rw [List.head?_nil, mergeRound]
      exact Answers.bind hanswers (Answers.pure _)
    | cons e s =>
      subst hhead
      rw [List.head?_cons, mergeRound, List.map_cons, advance_cons]
      rw [winner, List.findSome?_cons, List.head?_cons, Option.filter_some] at hwinner
      split
      . next hkey =>
        -- this is the winner
        rw [if_pos (decide_eq_true hkey)] at hwinner
        cases hwinner
        rcases hnext with ⟨cursor', hnext, hcursor'⟩
        have hmem : min ∈ seenKeys.insert min := List.mem_insert_self
        rcases answers_mergeRound_seen self hd min hrest (settled c memtable seenKeys entry) hmem
          with ⟨cursors', hanswers, hcursors'⟩
        refine ⟨cursor' :: cursors', ?_, List.Forall₂.cons hcursor' hcursors'⟩
        subst hkey
        unfold settled at hanswers ⊢
        split
        . next hnew =>
          rw [if_pos hnew] at hanswers
          apply Answers.bind (Answers.map (Answers.on (MemTable.answers_process hholds hentry)))
          apply Answers.bind hnext
          exact Answers.bind hanswers (Answers.pure _)
        . next hold =>
          rw [if_neg hold] at hanswers
          apply Answers.bind (Answers.pure _)
          apply Answers.bind hnext
          exact Answers.bind hanswers (Answers.pure _)
      . next hkey =>
        rw [if_neg (by simpa using hkey)] at hwinner
        rcases ih hwinner with ⟨cursors', hanswers, hcursors'⟩
        refine ⟨(some e, sstable) :: cursors', ?_, List.Forall₂.cons hcursor hcursors'⟩
        exact Answers.bind hanswers (Answers.pure _)

theorem forall₂_filter {d : Disk} {cursors : List Cursor} {streams : List (List Entry)}
    (h : List.Forall₂ (CursorOn c d) cursors streams) :
    List.Forall₂ (CursorOn c d) (cursors.filter fun cursor => cursor.1.isSome)
      (streams.filter fun s => s.head?.isSome) := by
  induction h with
  | nil => exact List.Forall₂.nil
  | @cons cursor s cursors streams hcursor hrest ih =>
    have hhead : cursor.1 = s.head? := by
      rcases hcursor with ⟨_, _, _, hhead, _⟩
      exact hhead
    rw [List.filter_cons, List.filter_cons, hhead]
    split
    . exact List.Forall₂.cons hcursor ih
    . exact ih

theorem minKey_eq {d : Disk} {cursors : List Cursor} {streams : List (List Entry)}
    (h : List.Forall₂ (CursorOn c d) cursors streams) :
    minKey cursors = leastKey Entry.key streams := by
  unfold minKey leastKey
  induction h with
  | nil => rfl
  | @cons cursor s cursors streams hcursor hrest ih =>
    rcases hcursor with ⟨_, _, _, hhead, _⟩
    rw [List.filterMap_cons, List.filterMap_cons, hhead]
    cases s with
    | nil => exact ih
    | cons entry s =>
      rw [List.head?_cons, List.map_cons, List.map_cons, List.min?_cons, List.min?_cons, ih]

end Chickadee
