import Chickadee.Impl.BloomFilter
import Chickadee.Lemmas.Header

/-!
This module contains the two facts about the bloom filter that lookups rest on: it has no false
negatives, and the filter that is read from a footer is the one that was written to it.
-/

namespace Chickadee

open Faulty Faulty.Io LittleEndian

namespace BloomFilter

theorem uint8_or_and_self (a b : UInt8) : (a ||| b) &&& b = b := by
  rw [← UInt8.toBitVec_inj, UInt8.toBitVec_and, UInt8.toBitVec_or]
  ext i
  rw [BitVec.getElem_and, BitVec.getElem_or]
  cases a.toBitVec[i] <;> simp

theorem uint8_and_eq_zero_of_or {a b x : UInt8} (h : (a ||| b) &&& x = 0) : a &&& x = 0 := by
  rw [← UInt8.toBitVec_inj, UInt8.toBitVec_and, UInt8.toBitVec_or] at h
  rw [← UInt8.toBitVec_inj, UInt8.toBitVec_and]
  ext i hi
  have hbit := congrArg (fun v => v[i]) h
  rw [BitVec.getElem_and, BitVec.getElem_or] at hbit
  rw [BitVec.getElem_and]
  cases ha : a.toBitVec[i] <;> simp_all

@[simp]
theorem length_setBit (inner : Bytes) (pos : Nat) : (setBit inner pos).length = inner.length := by
  simp [setBit]

theorem hasBit_setBit_self (inner : Bytes) (pos : Nat) : hasBit (setBit inner pos) pos = true := by
  unfold hasBit setBit
  rw [List.getElem?_modify_eq]
  cases inner[pos / 8]? with
  | none => rfl
  | some byte =>
    have hshift : ∀ k : Fin 8, (1 : UInt8) <<< UInt8.ofNat k.val ≠ 0 := by decide
    have hk := hshift ⟨pos % 8, Nat.mod_lt _ (by decide)⟩
    simpa only [Option.map_eq_map, Option.map_some, uint8_or_and_self, bne_iff_ne, ne_eq] using hk

theorem hasBit_setBit {inner : Bytes} {pos : Nat} (h : hasBit inner pos = true) (pos' : Nat) :
    hasBit (setBit inner pos') pos = true := by
  unfold hasBit setBit at *
  by_cases hbyte : pos' / 8 = pos / 8
  . rw [hbyte, List.getElem?_modify_eq]
    cases hget : inner[pos / 8]? with
    | none => rfl
    | some byte =>
      simp only [hget, bne_iff_ne, ne_eq] at h
      simp only [Option.map_eq_map, Option.map_some, bne_iff_ne, ne_eq]
      intro hzero
      apply h
      apply uint8_and_eq_zero_of_or hzero
  . rw [List.getElem?_modify_ne _ _ hbyte]
    exact h

theorem length_foldl_setBit (ps : List Nat) (inner : Bytes) :
    (ps.foldl setBit inner).length = inner.length := by
  induction ps generalizing inner with
  | nil => rfl
  | cons p ps ih => rw [List.foldl_cons, ih, length_setBit]

theorem hasBit_foldl_setBit {inner : Bytes} {pos : Nat} (ps : List Nat)
    (h : hasBit inner pos = true) : hasBit (ps.foldl setBit inner) pos = true := by
  induction ps generalizing inner with
  | nil => exact h
  | cons p ps ih =>
    apply ih
    apply hasBit_setBit h

theorem hasBit_foldl_setBit_of_mem {ps : List Nat} {pos : Nat} (h : pos ∈ ps) (inner : Bytes) :
    hasBit (ps.foldl setBit inner) pos = true := by
  induction ps generalizing inner with
  | nil => contradiction
  | cons p ps ih =>
    rw [List.foldl_cons]
    cases List.mem_cons.mp h with
    | inl heq =>
      rw [heq]
      apply hasBit_foldl_setBit
      apply hasBit_setBit_self
    | inr hmem => apply ih hmem

variable (c : Crates)

@[simp]
theorem bitCount_insert (filter : BloomFilter) (key : Bytes) :
    (filter.insert c key).bitCount = filter.bitCount := rfl

@[simp]
theorem length_insert (filter : BloomFilter) (key : Bytes) :
    (filter.insert c key).inner.length = filter.inner.length :=
  length_foldl_setBit _ _

theorem mayContain_insert_self (filter : BloomFilter) (key : Bytes) :
    (filter.insert c key).mayContain c key = true := by
  unfold mayContain
  rw [List.all_eq_true]
  intro pos hpos
  apply hasBit_foldl_setBit_of_mem
  exact hpos

theorem mayContain_insert {filter : BloomFilter} {key : Bytes}
    (h : filter.mayContain c key = true) (key' : Bytes) :
    (filter.insert c key').mayContain c key = true := by
  unfold mayContain at *
  rw [List.all_eq_true] at *
  intro pos hpos
  apply hasBit_foldl_setBit
  apply h pos hpos

def ofKeys (keys : List String) : BloomFilter :=
  keys.foldl (fun filter key => filter.insert c (bytesOf key)) (new (keys.length * 10))

theorem mayContain_foldl_insert {filter : BloomFilter} {key : Bytes} (keys : List String)
    (h : filter.mayContain c key = true) :
    (keys.foldl (fun filter key => filter.insert c (bytesOf key)) filter).mayContain c key
      = true := by
  induction keys generalizing filter with
  | nil => exact h
  | cons k keys ih =>
    apply ih
    apply mayContain_insert c h

/--
There are no false negatives.
-/
theorem mayContain_ofKeys {keys : List String} {key : String} (h : key ∈ keys) :
    (ofKeys c keys).mayContain c (bytesOf key) = true := by
  unfold ofKeys
  generalize new (keys.length * 10) = filter
  induction keys generalizing filter with
  | nil => contradiction
  | cons k keys ih =>
    rw [List.foldl_cons]
    cases List.mem_cons.mp h with
    | inl heq =>
      rw [← heq]
      apply mayContain_foldl_insert
      apply mayContain_insert_self
    | inr hmem => apply ih hmem

theorem foldl_insert_fields (keys : List String) (filter : BloomFilter) :
    (keys.foldl (fun filter key => filter.insert c (bytesOf key)) filter).bitCount
        = filter.bitCount
      ∧ (keys.foldl (fun filter key => filter.insert c (bytesOf key)) filter).inner.length
        = filter.inner.length := by
  induction keys generalizing filter with
  | nil => simp
  | cons k keys ih =>
    rw [List.foldl_cons]
    have := ih (filter.insert c (bytesOf k))
    rw [bitCount_insert, length_insert] at this
    exact this

@[simp]
theorem bitCount_ofKeys (keys : List String) : (ofKeys c keys).bitCount = keys.length * 10 :=
  (foldl_insert_fields c keys _).1

@[simp]
theorem length_ofKeys (keys : List String) :
    (ofKeys c keys).inner.length = divCeil (keys.length * 10) 8 := by
  unfold ofKeys
  rw [(foldl_insert_fields c keys _).2]
  simp [new]

-- the filter bytes and the bit count, as they stand at the end of an `SSTable`
def footer (filter : BloomFilter) : Bytes :=
  filter.inner ++ toLe 4 filter.bitCount

@[simp]
theorem length_footer (filter : BloomFilter) :
    filter.footer.length = filter.inner.length + 4 := by
  simp [footer]

end BloomFilter

theorem divCeil_add_le (n : Nat) (h : n < 2 ^ 32) : divCeil n 8 + 4 < 2 ^ 64 := by
  unfold divCeil
  omega

def filterOf (bytes : Bytes) : Option BloomFilter :=
  if bytes.length < 4 then
    none
  else
    let bitCount := ofLe (bytes.drop (bytes.length - 4))
    let byteCount := divCeil bitCount 8
    if byteCount + 4 ≤ bytes.length then
      some
        { bitCount := bitCount
          inner := (bytes.drop (bytes.length - (byteCount + 4))).take byteCount }
    else
      none

theorem reading_readBloomFilter (contents : Contents) (pos : Nat) :
    Reading readBloomFilter contents pos
      (.ok (filterOf contents.bytes),
        if (filterOf contents.bytes).isSome then 0 else contents.length) := by
  have hlen : contents.length = contents.bytes.length := rfl
  unfold readBloomFilter
  apply Reading.bind_ok (Reading.seek_fromEnd (Nat.zero_le _))
  apply Reading.bind_ok Reading.streamPosition
  unfold filterOf
  rw [Nat.sub_zero, ← hlen]
  split
  . apply Reading.pure
  . next hsize =>
    apply Reading.bind_ok (Reading.seek_fromEnd (Nat.not_lt.mp hsize))
    apply Reading.bind_ok (Reading.readExact (by omega))
    have htake : (contents.bytes.drop (contents.length - 4)).take 4
        = contents.bytes.drop (contents.length - 4) := by
      apply List.take_of_length_le
      rw [List.length_drop]
      omega
    rw [htake]
    have hbits : ofLe (contents.bytes.drop (contents.length - 4)) < 2 ^ 32 := by
      have := ofLe_lt (contents.bytes.drop (contents.length - 4))
      rw [List.length_drop, show contents.bytes.length - (contents.length - 4) = 4 by omega] at this
      exact this
    apply Reading.bind_ok
    . apply Reading.context
      apply checkedAdd_eq_some
      apply divCeil_add_le _ hbits
    . dsimp only
      by_cases hfits : divCeil (ofLe (contents.bytes.drop (contents.length - 4))) 8 + 4
          ≤ contents.length
      . rw [checkedSub_eq_some hfits, if_pos hfits]
        apply Reading.bind_ok (Reading.seek_start _)
        apply Reading.bind_ok (Reading.readExact (by omega))
        apply Reading.bind_ok (Reading.seek_start _)
        apply Reading.pure
      . rw [checkedSub, if_neg hfits, if_neg hfits,
          show contents.length - 4 + 4 = contents.length by omega]
        apply Reading.pure

theorem filterOf_append_footer {filter : BloomFilter} (hbits : filter.bitCount < 2 ^ 32)
    (hinner : filter.inner.length = divCeil filter.bitCount 8) (records : Bytes) :
    filterOf (records ++ filter.footer) = some filter := by
  have hlen : (records ++ filter.footer).length
      = records.length + filter.inner.length + 4 := by
    simp only [List.length_append, BloomFilter.length_footer]
    omega
  have hdrop : (records ++ filter.footer).drop ((records ++ filter.footer).length - 4)
      = toLe 4 filter.bitCount := by
    rw [hlen, BloomFilter.footer, ← List.append_assoc]
    apply List.drop_left'
    rw [List.length_append]
    omega
  have hbitCount : ofLe (toLe 4 filter.bitCount) = filter.bitCount := ofLe_toLe hbits
  unfold filterOf
  rw [if_neg (by omega), hdrop, hbitCount]
  dsimp only
  rw [← hinner, if_pos (by omega)]
  have hinner' : ((records ++ filter.footer).drop
      ((records ++ filter.footer).length - (filter.inner.length + 4))).take filter.inner.length
      = filter.inner := by
    rw [hlen, show records.length + filter.inner.length + 4 - (filter.inner.length + 4)
      = records.length by omega, List.drop_left, BloomFilter.footer, List.take_left]
  rw [hinner']

end Chickadee
