import Chickadee.Lemmas.FileName

/-!
This module contains that a directory which is sorted by the names of its files is sorted by their
timestamps, as long as these have no more digits than the names are padded to.
-/

namespace Chickadee

def Ascii (l : List Char) : Prop :=
  ∀ ch ∈ l, ch.toNat < 128

theorem bytesOf_ofList {l : List Char} (h : Ascii l) :
    bytesOf (String.ofList l) = l.map fun ch => UInt8.ofNat ch.toNat := by
  have hencode : ∀ ch ∈ l, String.utf8EncodeChar ch = [UInt8.ofNat ch.toNat] := by
    intro ch hch
    have hle : ch.val.toNat ≤ 0x7f := Nat.le_of_lt_succ (h ch hch)
    unfold String.utf8EncodeChar
    rw [if_pos hle]
    rfl
  have hbytes : bytesOf (String.ofList l) = l.flatMap String.utf8EncodeChar := by
    unfold bytesOf
    rw [String.toUTF8_eq_toByteArray, String.toByteArray_ofList, List.utf8Encode,
      List.toList_data_toByteArray]
  rw [hbytes, List.flatMap_congr hencode, List.map_eq_flatMap]

theorem toNat_ofNat_toNat {ch : Char} (h : ch.toNat < 128) :
    (UInt8.ofNat ch.toNat).toNat = ch.toNat :=
  UInt8.toNat_ofNat_of_lt' (h.trans (by decide))

theorem ofNat_toNat_lt_iff {a b : Char} (ha : a.toNat < 128) (hb : b.toNat < 128) :
    UInt8.ofNat a.toNat < UInt8.ofNat b.toNat ↔ a < b := by
  rw [UInt8.lt_iff_toNat_lt, toNat_ofNat_toNat ha, toNat_ofNat_toNat hb]
  rfl

theorem map_ofNat_lt_iff {l l' : List Char} (h : Ascii l) (h' : Ascii l') :
    (l.map fun ch => UInt8.ofNat ch.toNat) < (l'.map fun ch => UInt8.ofNat ch.toNat) ↔ l < l' := by
  induction l generalizing l' with
  | nil =>
    cases l' with
    | nil => simp
    | cons b l' => simp
  | cons a l ih =>
    cases l' with
    | nil => simp
    | cons b l' =>
      have ha := h a List.mem_cons_self
      have hb := h' b List.mem_cons_self
      have hrest := ih (fun ch hch => h ch (List.mem_cons_of_mem _ hch))
        (fun ch hch => h' ch (List.mem_cons_of_mem _ hch))
      have heq : UInt8.ofNat a.toNat = UInt8.ofNat b.toNat ↔ a = b := by
        constructor
        . intro heq
          have hnat := congrArg UInt8.toNat heq
          rw [toNat_ofNat_toNat ha, toNat_ofNat_toNat hb] at hnat
          exact Char.toNat_inj.mp hnat
        . intro heq
          rw [heq]
      rw [List.map_cons, List.map_cons, List.cons_lt_cons_iff, List.cons_lt_cons_iff, hrest, heq,
        ofNat_toNat_lt_iff ha hb]

namespace MemTable

theorem ascii_fileName (ts : Nat) : Ascii (fileName ts).toList := by
  intro ch hch
  rw [toList_fileName, padded, List.leftpad, List.mem_append, List.mem_append] at hch
  rcases hch with (hpad | hdigit) | hsuffix
  . rw [List.eq_of_mem_replicate hpad]
    decide
  . have hdigit := Nat.isDigit_of_mem_toDigits (by decide) (by decide) hdigit
    simp only [Char.isDigit, Bool.and_eq_true, decide_eq_true_eq] at hdigit
    have hle : ch.val.toNat ≤ 57 := hdigit.2
    exact Nat.lt_of_le_of_lt hle (by decide)
  . have hsuffix : ch ∈ ['.', 's', 's', 't'] := hsuffix
    simp only [List.mem_cons, List.not_mem_nil, or_false] at hsuffix
    rcases hsuffix with rfl | rfl | rfl | rfl <;> decide

theorem bytesOf_fileName_lt_iff {a b : Nat} (ha : a < 10 ^ 20) (hb : b < 10 ^ 20) :
    bytesOf (fileName a) < bytesOf (fileName b) ↔ a < b := by
  have hlist := map_ofNat_lt_iff (ascii_fileName a) (ascii_fileName b)
  rw [← bytesOf_ofList (ascii_fileName a), ← bytesOf_ofList (ascii_fileName b), String.ofList_toList,
    String.ofList_toList] at hlist
  rw [hlist, ← String.lt_iff_toList_lt, fileName_lt_iff ha hb]

end MemTable

/--
The names below `10 ^ 20` are ordered like the timestamps, byte by byte, and whatever the order of the
entries of a directory is, it is sorted with the latest timestamp first.
-/
theorem sortNewestFirst_fileName :
    (∀ a < 10 ^ 20, ∀ b < 10 ^ 20,
      bytesOf (MemTable.fileName a) < bytesOf (MemTable.fileName b) ↔ a < b)
      ∧ ∀ timestamps : List Nat, (∀ ts ∈ timestamps, ts < 10 ^ 20) → timestamps.Nodup →
        ∃ sorted : List Nat, sorted.Perm timestamps ∧ sorted.Pairwise (fun newer older => older < newer)
          ∧ sortNewestFirst (timestamps.map MemTable.fileName) = sorted.map MemTable.fileName := by
  constructor
  . intro a ha b hb
    exact MemTable.bytesOf_fileName_lt_iff ha hb
  . intro timestamps hlt hnodup
    have hperm := List.perm_insertionSort (fun a b : Nat => b ≤ a) timestamps
    refine ⟨timestamps.insertionSort fun a b => b ≤ a, hperm, ?_, ?_⟩
    . have hsorted := List.pairwise_insertionSort (fun a b : Nat => b ≤ a) timestamps
      have hdistinct := hperm.nodup_iff.mpr hnodup
      exact (hsorted.and hdistinct).imp fun ⟨hle, hne⟩ => Nat.lt_of_le_of_ne hle hne.symm
    . have hnames : ∀ a ∈ timestamps, ∀ b ∈ timestamps,
          b ≤ a ↔ MemTable.fileName b ≤ MemTable.fileName a := by
        intro a ha b hb
        rw [← not_lt, ← not_lt, MemTable.fileName_lt_iff (hlt a ha) (hlt b hb)]
      exact (List.map_insertionSort _ _ MemTable.fileName timestamps hnames).symm

theorem sortNewestFirst_fileName_padded :
    (bytesOf (MemTable.fileName 9) < bytesOf (MemTable.fileName 10))
      ∧ ∃ sorted : List Nat, sorted.Perm [9, 10, 2] ∧ sorted.Pairwise (fun newer older => older < newer)
        ∧ sortNewestFirst ([9, 10, 2].map MemTable.fileName) = sorted.map MemTable.fileName :=
  ⟨(sortNewestFirst_fileName.1 9 (by decide) 10 (by decide)).mpr (by decide),
    sortNewestFirst_fileName.2 [9, 10, 2] (by decide) (by decide)⟩

-- one more digit is one too many
example : MemTable.fileName (10 ^ 20) < MemTable.fileName (10 ^ 20 - 1) := by decide +kernel

end Chickadee
