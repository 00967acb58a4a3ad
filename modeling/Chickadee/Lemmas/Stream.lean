import Chickadee.Lemmas.Log

/-!
This module contains streams of records with gaps between them, in which nothing decodes: torn
appends, damaged records and garbage. A reader that resynchronises reads the records and nothing
else.
-/

namespace Chickadee

open Faulty Faulty.Io Resync

variable {T : Type} (c : Codec T)

-- records, each of them after a gap, and a gap at the end
def stream : List (Bytes × T) → Bytes → Bytes
  | [], last => last
  | (gap, value) :: pairs, last => gap ++ (encoded c value ++ stream pairs last)

-- no record decodes at an offset in a gap
def Silent : List (Bytes × T) → Bytes → Prop
  | [], last => ∀ q < last.length, parseRecord c (last.drop q) = none
  | (gap, value) :: pairs, last =>
    (∀ q < gap.length, parseRecord c ((stream c ((gap, value) :: pairs) last).drop q) = none)
      ∧ Silent pairs last

variable {c}

@[simp]
theorem stream_nil (last : Bytes) : stream c [] last = last := rfl

@[simp]
theorem stream_cons (gap : Bytes) (value : T) (pairs : List (Bytes × T)) (last : Bytes) :
    stream c ((gap, value) :: pairs) last = gap ++ (encoded c value ++ stream c pairs last) := rfl

theorem readNext_stream_nil {before last : Bytes} {contents : Contents}
    (hbytes : contents.bytes = before ++ last) (h : Silent c [] last) :
    readNext c contents before.length = (none, contents.length) := by
  have hlen : contents.length = before.length + last.length := by
    rw [Contents.length, hbytes, List.length_append]
  unfold readNext
  split
  . rw [Prod.mk.injEq]
    exact ⟨rfl, by omega⟩
  . have hscan : scan (parseRecord c) (contents.bytes.drop before.length) = none := by
      rw [scan_eq_none_iff, hbytes, List.drop_left]
      exact h
    rw [hscan]

theorem readNext_stream_cons {before gap last : Bytes} {value : T} {pairs : List (Bytes × T)}
    {contents : Contents} (hbytes : contents.bytes = before ++ stream c ((gap, value) :: pairs) last)
    (hvalue : Writable c value) (h : Silent c ((gap, value) :: pairs) last) :
    readNext c contents before.length
      =
    (some value, before.length + gap.length + (encoded c value).length) := by
  have hpos := List.length_pos_iff.mpr (encoded_ne_nil hvalue)
  have hscan : scan (parseRecord c) (contents.bytes.drop before.length)
      = some (gap.length, value, (encoded c value).length) := by
    rw [scan_eq_some_iff, hbytes, List.drop_left]
    refine ⟨?_, ?_, h.1⟩
    . simp only [stream_cons, List.length_append]
      omega
    . rw [stream_cons, List.drop_left]
      exact parseRecord_encoded hvalue _
  unfold readNext
  rw [if_neg, hscan]
  have hlen := congrArg List.length hbytes
  simp only [stream_cons, List.length_append] at hlen
  unfold Contents.length
  omega

end Chickadee
