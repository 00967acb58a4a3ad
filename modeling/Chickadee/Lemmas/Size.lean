import Chickadee.Lemmas.MemTable

/-!
This module contains what the size of the memtable counts: as long as no operation on it saturates, it
is the sum of what the entries weigh.
-/

namespace Chickadee

variable (c : Crates)

def isizeMax : Nat := 2 ^ 63 - 1

-- `entry_size` without saturation
def entryWeight (entry : Entry) : Nat :=
  (bytesOf entry.key).length + ((c.serialize entry).getD []).length

-- wincode returns what it can decode, with a length that fits the header
def PayloadsFit : Prop :=
  ∀ entry payload, c.serialize entry = some payload → c.RoundTrips entry payload

namespace MemTable

def weight (memtable : MemTable) : Nat :=
  (memtable.values.map (entryWeight c)).sum

-- what is subtracted when an entry of the key is processed
def replacedWeight (memtable : MemTable) (key : String) : Nat :=
  ((memtable.get key).map (entryWeight c)).getD 0

-- neither the subtraction nor the addition in `process` saturates
def Unclamped (memtable : MemTable) (entry : Entry) : Prop :=
  replacedWeight c memtable entry.key ≤ memtable.size
    ∧ memtable.size - replacedWeight c memtable entry.key + entryWeight c entry ≤ u64Max

def Fits (entry : Entry) : Prop :=
  Writable c.toCodec entry ∧ (bytesOf entry.key).length ≤ isizeMax

variable {c}

theorem entryWeight_pos {entry : Entry} (h : Writable c.toCodec entry) : 0 < entryWeight c entry := by
  rcases h with ⟨payload, h⟩
  have := h.pos
  simp only [entryWeight, h.serialize_eq, Option.getD_some]
  omega

theorem Fits.weight_le {entry : Entry} (h : Fits c entry) :
    entryWeight c entry ≤ isizeMax + 2 ^ 32 := by
  rcases h with ⟨⟨payload, h⟩, hkey⟩
  have := h.lt
  simp only [entryWeight, h.serialize_eq, Option.getD_some]
  omega

theorem Fits.sizeOf_eq {entry : Entry} (h : Fits c entry) :
    sizeOf c entry = entryWeight c entry := by
  have hle := h.weight_le
  rcases h with ⟨⟨payload, h⟩, -⟩
  simp only [sizeOf, entryWeight, entrySize, h.serialize_eq, saturatingAdd, Option.getD_some] at *
  unfold u64Max isizeMax at *
  omega

theorem weight_perm {memtable : MemTable} {entries : List Entry}
    (h : memtable.values.Perm entries) : weight c memtable = (entries.map (entryWeight c)).sum :=
  (h.map _).sum_eq

theorem weight_eq_erase (memtable : MemTable) (key : String) :
    weight c memtable = replacedWeight c memtable key
      + ((memtable.inner.erase key).values.map (entryWeight c)).sum := by
  unfold replacedWeight MemTable.get
  cases hget : memtable.inner.get? key with
  | none =>
    rw [SortedMap.erase_of_get?_eq_none hget]
    exact (Nat.zero_add _).symm
  | some entry => exact weight_perm (SortedMap.values_perm_erase hget)

theorem replacedWeight_le (memtable : MemTable) (key : String) :
    replacedWeight c memtable key ≤ weight c memtable := by
  rw [weight_eq_erase memtable key]
  exact Nat.le_add_right _ _

theorem weight_processed (memtable : MemTable) (entry : Entry) :
    weight c (memtable.processed c entry)
      =
    weight c memtable - replacedWeight c memtable entry.key + entryWeight c entry := by
  have hget : (memtable.processed c entry).inner.get? entry.key = some entry :=
    (memtable.get_processed entry entry.key).trans (if_pos rfl)
  have herase : (memtable.processed c entry).inner.erase entry.key
      = memtable.inner.erase entry.key := SortedMap.erase_insert _ _ _
  rw [weight_perm (SortedMap.values_perm_erase hget), herase, weight_eq_erase memtable entry.key]
  simp only [List.map_cons, List.sum_cons]
  omega

theorem size_processed {memtable : MemTable} (hfits : memtable.Holds (Fits c)) {entry : Entry}
    (hentry : Fits c entry) (hunclamped : Unclamped c memtable entry) :
    (memtable.processed c entry).size
      =
    memtable.size - replacedWeight c memtable entry.key + entryWeight c entry := by
  have hsize : (memtable.processed c entry).size
      = saturatingAdd (memtable.size - replacedWeight c memtable entry.key)
          (entryWeight c entry) := by
    unfold replacedWeight MemTable.get
    simp only [processed, store, hentry.sizeOf_eq]
    cases hget : memtable.inner.get? entry.key with
    | none => rfl
    | some previous =>
      have hprevious : Fits c previous := hfits.of_get hget
      simp only [hprevious.sizeOf_eq, saturatingSub, Option.map_some, Option.getD_some]
  rw [hsize]
  exact Nat.min_eq_left hunclamped.2

theorem unclamped_of_size_le {memtable : MemTable} (hsize : memtable.size = weight c memtable)
    (hle : memtable.size ≤ flushThresholdMb * 2 ^ 20) {entry : Entry} (hentry : Fits c entry) :
    Unclamped c memtable entry := by
  have hreplaced := replacedWeight_le (c := c) memtable entry.key
  have hweight := hentry.weight_le
  unfold Unclamped
  unfold flushThresholdMb isizeMax u64Max at *
  omega

theorem size_eq_weight_processed {memtable : MemTable} (hfits : memtable.Holds (Fits c))
    (hsize : memtable.size = weight c memtable) {entry : Entry} (hentry : Fits c entry)
    (hunclamped : Unclamped c memtable entry) :
    (memtable.processed c entry).size = weight c (memtable.processed c entry) := by
  rw [size_processed hfits hentry hunclamped, weight_processed, hsize]

theorem len_le_weight {memtable : MemTable} (h : memtable.Holds (Fits c)) :
    memtable.len ≤ weight c memtable := by
  rw [← length_values, weight, ← List.length_map (entryWeight c)]
  apply List.length_le_sum_of_one_le
  intro n hn
  rw [List.mem_map] at hn
  rcases hn with ⟨entry, hentry, rfl⟩
  exact entryWeight_pos (h entry hentry).1

end MemTable

open MemTable

-- no memtable on the way of a replay has had to be flushed, but for the last one
def Light (c : Crates) (entries : List Entry) : Prop :=
  ∀ done, done <+: entries → done.length < entries.length →
    (done.foldl (MemTable.processed c) .new).size ≤ flushThresholdMb * 2 ^ 20

variable {c}

theorem Light.of_append {entries : List Entry} {last : Entry} (h : Light c (entries ++ [last])) :
    Light c entries := by
  intro done hdone hlt
  apply h done (hdone.trans (List.prefix_append _ _))
  rw [List.length_append]
  omega

theorem Light.append {entries : List Entry} (h : Light c entries)
    (hsize : (entries.foldl (MemTable.processed c) .new).size ≤ flushThresholdMb * 2 ^ 20)
    (last : Entry) : Light c (entries ++ [last]) := by
  intro done hdone hlt
  rcases List.prefix_concat_iff.mp hdone with rfl | hshort
  . exact absurd hlt (lt_irrefl _)
  . rcases Nat.lt_or_ge done.length entries.length with hlt | hge
    . exact h done hshort hlt
    . rw [hshort.eq_of_length_le hge]
      exact hsize

theorem holds_foldl_processed {entries : List Entry} (h : ∀ entry ∈ entries, Fits c entry) :
    (entries.foldl (MemTable.processed c) .new).Holds (Fits c) :=
  Holds.foldl_processed h (holds_new _)

theorem size_foldl_processed {entries : List Entry} (hfits : ∀ entry ∈ entries, Fits c entry)
    (hlight : Light c entries) :
    (entries.foldl (MemTable.processed c) .new).size
        = weight c (entries.foldl (MemTable.processed c) .new)
      ∧ ∀ done entry, done ++ [entry] <+: entries →
        Unclamped c (done.foldl (MemTable.processed c) .new) entry := by
  induction entries using List.reverseRecOn with
  | nil =>
    refine ⟨rfl, ?_⟩
    intro done entry h
    simpa using h.length_le
  | append_singleton entries last ih =>
    have hbefore : ∀ entry ∈ entries, Fits c entry :=
      fun entry hentry => hfits entry (List.mem_append_left _ hentry)
    have hlast : Fits c last := hfits last (by simp)
    rcases ih hbefore hlight.of_append with ⟨hsize, hunclamped⟩
    have hle := hlight entries (List.prefix_append _ _) (by simp)
    have hnext := unclamped_of_size_le hsize hle hlast
    constructor
    . rw [List.foldl_append]
      exact size_eq_weight_processed (holds_foldl_processed hbefore) hsize hlast hnext
    . intro done entry h
      rcases List.prefix_concat_iff.mp h with heq | hshort
      . rcases List.append_inj' heq rfl with ⟨rfl, hentry⟩
        cases hentry
        exact hnext
      . exact hunclamped done entry hshort

theorem len_foldl_processed_le {entries : List Entry} (hfits : ∀ entry ∈ entries, Fits c entry)
    (hlight : Light c entries) :
    (entries.foldl (MemTable.processed c) .new).len ≤ flushThresholdMb * 2 ^ 20 + 1 := by
  rcases entries.eq_nil_or_concat' with rfl | ⟨before, last, rfl⟩
  . exact Nat.zero_le _
  . have hbefore : ∀ entry ∈ before, Fits c entry :=
      fun entry hentry => hfits entry (List.mem_append_left _ hentry)
    have hsize := (size_foldl_processed hbefore hlight.of_append).1
    have hlen := len_le_weight (holds_foldl_processed hbefore)
    have hle := hlight before (List.prefix_append _ _) (by simp)
    rw [← hsize] at hlen
    rw [List.foldl_append]
    exact (SortedMap.size_insert_le _ _ _).trans (Nat.succ_le_succ (hlen.trans hle))

end Chickadee
