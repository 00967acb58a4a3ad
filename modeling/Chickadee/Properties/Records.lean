import Chickadee.Impl.Concrete
import Chickadee.Impl.Run
import Chickadee.Lemmas.Stream

/-!
This module contains the round trip of the record format over whole streams: whatever garbage stands
between the records, the reader returns them one after the other.
-/

namespace Chickadee

open Faulty Faulty.Io

variable {T : Type} (c : Codec T)

-- `n` calls of `header_read_next`, each with the cursor after it
def readMany : Nat → FileIo (List (Option T × Nat))
  | 0 => return []
  | n + 1 => do
    let value ← headerReadNext c
    let pos ← streamPosition
    let rest ← readMany n
    return (value, pos) :: rest

-- the records of a stream that starts at `pos`, each with the offset of its end
def ends (pos : Nat) : List (Bytes × T) → List (Option T × Nat)
  | [] => []
  | (gap, value) :: pairs =>
    (some value, pos + gap.length + (encoded c value).length)
      :: ends (pos + gap.length + (encoded c value).length) pairs

variable {c}

theorem reading_readMany {contents : Contents} (before : Bytes) {last : Bytes}
    {pairs : List (Bytes × T)} (n : Nat) (hbytes : contents.bytes = before ++ stream c pairs last)
    (hpairs : ∀ p ∈ pairs, Writable c p.2) (h : Silent c pairs last) :
    ∃ pos, Reading (readMany c n) contents before.length
      (.ok ((ends c before.length pairs ++ List.replicate n (none, contents.length)).take n), pos)
      := by
  induction n generalizing before pairs last with
  | zero => exact ⟨_, Reading.pure _⟩
  | succ n ih =>
    have hnext := reading_headerReadNext (c := c) contents before.length
    unfold readMany
    cases pairs with
    | nil =>
      rw [readNext_stream_nil hbytes h] at hnext
      -- the cursor stands at the end of the file, and stays there
      have hrest := @ih contents.bytes [] [] (by simp) (by simp) (by intro q hq; simp at hq)
      rcases hrest with ⟨pos, hrest⟩
      refine ⟨pos, ?_⟩
      apply Reading.bind_ok hnext
      apply Reading.bind_ok Reading.streamPosition
      apply Reading.bind_ok hrest
      have htake : (List.replicate n ((none : Option T), contents.length)).take n
          = List.replicate n (none, contents.length) := by
        rw [List.take_replicate, Nat.min_self]
      simp only [ends, List.nil_append, htake, List.replicate_succ, List.take_succ_cons]
      apply Reading.pure
    | cons p pairs =>
      rcases p with ⟨gap, value⟩
      rw [readNext_stream_cons hbytes (hpairs _ List.mem_cons_self) h] at hnext
      have hrest := ih (before ++ (gap ++ encoded c value))
        (by rw [hbytes]; simp) (fun p hp => hpairs p (List.mem_cons_of_mem _ hp)) h.2
      rcases hrest with ⟨pos, hrest⟩
      refine ⟨pos, ?_⟩
      apply Reading.bind_ok hnext
      apply Reading.bind_ok Reading.streamPosition
      simp only [List.length_append, ← Nat.add_assoc] at hrest
      apply Reading.bind_ok hrest
      have htake : ∀ rs : List (Option T × Nat),
          (rs ++ List.replicate (n + 1) (none, contents.length)).take n
            = (rs ++ List.replicate n (none, contents.length)).take n := by
        intro rs
        rw [List.replicate_succ', ← List.append_assoc, List.take_append_of_le_length (by simp)]
      rw [ends, List.cons_append, List.take_succ_cons, htake]
      apply Reading.pure

/--
The records of a stream are read one after the other, and then nothing more.
-/
theorem readMany_stream {m : Machine Call Disk File} {pairs : List (Bytes × T)} {last : Bytes}
    (n : Nat) (hm : m.Faultless) (hpos : m.self.pos = 0)
    (hbytes : (m.disk.read m.self.path).bytes = stream c pairs last)
    (hpairs : ∀ p ∈ pairs, Writable c p.2) (h : Silent c pairs last) :
    ∃ m', (readMany c n).run m
      =
    .ok ((ends c 0 pairs ++ List.replicate n (none, (stream c pairs last).length)).take n) m' := by
  rcases reading_readMany [] n hbytes hpairs h with ⟨pos, hread⟩
  have hlen : (m.disk.read m.self.path).length = (stream c pairs last).length := by
    rw [Contents.length, hbytes]
  have hself : m.self = ⟨m.self.path, 0⟩ := by rw [← hpos]
  rcases (Answers.of_reading hread rfl).run hm rfl hself with ⟨m', hrun, -⟩
  rw [hlen] at hrun
  exact ⟨m', hrun⟩

def sampleStream : List (Bytes × Entry) :=
  [([], .set "a" "b"), ([67, 68, 0], .delete "a")]

def sampleMachine : Machine Call Disk File :=
  .boot { Disk.empty Nat.succ with
    wal := .clip (stream Concrete.crates.toCodec sampleStream [67]) } ⟨.wal, 0⟩

theorem readMany_stream_sample :
    ∃ m', (readMany Concrete.crates.toCodec 4).run sampleMachine
      =
    .ok [(some (.set "a" "b"), 32), (some (.delete "a"), 58), (none, 59), (none, 59)] m' := by
  have hends : (ends Concrete.crates.toCodec 0 sampleStream ++ List.replicate 4
      (none, (stream Concrete.crates.toCodec sampleStream [67]).length)).take 4
      = [(some (.set "a" "b"), 32), (some (.delete "a"), 58), (none, 59), (none, 59)] := by
    decide +kernel
  rw [← hends]
  apply readMany_stream 4 (Machine.boot_faultless _ _) rfl
  . decide +kernel
  . intro p hp
    simp only [sampleStream, List.mem_cons, List.not_mem_nil, or_false] at hp
    rcases hp with rfl | rfl
    . exact Writable.of_check _ (by decide +kernel)
    . exact Writable.of_check _ (by decide +kernel)
  . refine ⟨?_, ?_, ?_⟩
    . decide +kernel
    . decide +kernel
    . intro q hq
      apply parseRecord_short
      rw [List.length_drop]
      exact (Nat.sub_le _ _).trans (by decide)

end Chickadee
