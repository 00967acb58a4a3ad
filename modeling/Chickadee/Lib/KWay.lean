import Mathlib

/-!
This module contains the k-way merge of ascending streams: in every round, all streams that start
with the least key advance, and the first of them decides about the key.
-/

namespace KWay

variable {α κ : Type} [LinearOrder κ] (key : α → κ)

def Ascending (s : List α) : Prop :=
  s.Pairwise fun a b => key a < key b

def find (s : List α) (k : κ) : Option α :=
  s.find? fun a => key a = k

-- the first stream that holds the key decides
def first (streams : List (List α)) (k : κ) : Option α :=
  streams.findSome? fun s => find key s k

def advance (k : κ) : List α → List α
  | [] => []
  | a :: s => if key a = k then s else a :: s

-- no stream starts below `k`
def Least (k : κ) (streams : List (List α)) : Prop :=
  ∀ s ∈ streams, ∀ a ∈ s.head?, k ≤ key a

-- the first of the elements the streams start with that has the key
def winner (k : κ) (streams : List (List α)) : Option α :=
  streams.findSome? fun s => s.head?.filter fun a => key a = k

variable {key} {k k' : κ} {s : List α} {streams : List (List α)}

theorem advance_cons (a : α) (s : List α) :
    advance key k (a :: s) = if key a = k then s else a :: s := rfl

@[simp]
theorem find_nil : find key [] k = none := rfl

theorem find_cons (a : α) (s : List α) :
    find key (a :: s) k = if key a = k then some a else find key s k := by
  unfold find
  rw [List.find?_cons]
  by_cases h : key a = k <;> simp [h]

theorem key_of_find {a : α} (h : find key s k = some a) : key a = k := by
  simpa using List.find?_some h

theorem mem_of_find {a : α} (h : find key s k = some a) : a ∈ s :=
  List.mem_of_find?_eq_some h

theorem find_eq_none_iff : find key s k = none ↔ ∀ a ∈ s, key a ≠ k := by
  simp [find]

@[simp]
theorem first_nil : first key [] k = none := rfl

theorem first_cons (s : List α) (streams : List (List α)) :
    first key (s :: streams) k = (find key s k).or (first key streams k) := by
  rw [first, List.findSome?_cons]
  cases find key s k <;> rfl

theorem first_eq_none_iff : first key streams k = none ↔ ∀ s ∈ streams, find key s k = none := by
  simp [first]

theorem exists_of_first {a : α} (h : first key streams k = some a) : ∃ s ∈ streams, a ∈ s := by
  rcases List.exists_of_findSome?_eq_some h with ⟨s, hs, hfind⟩
  exact ⟨s, hs, mem_of_find hfind⟩

theorem key_of_first {a : α} (h : first key streams k = some a) : key a = k := by
  rcases List.exists_of_findSome?_eq_some h with ⟨s, hs, hfind⟩
  exact key_of_find hfind

theorem find_of_mem {a : α} (hnodup : (s.map key).Nodup) (ha : a ∈ s) :
    find key s (key a) = some a := by
  cases hfind : find key s (key a) with
  | none => exact absurd rfl (find_eq_none_iff.mp hfind a ha)
  | some b =>
    rw [List.inj_on_of_nodup_map hnodup (mem_of_find hfind) ha (key_of_find hfind)]

/--
Where no key is there twice, it does not matter how the elements are spread over the streams.
-/
theorem first_eq_find (streams : List (List α)) {out : List α}
    (hmem : ∀ a, (∃ s ∈ streams, a ∈ s) ↔ a ∈ out)
    (hnodup : (out.map key).Nodup) (k : κ) : first key streams k = find key out k := by
  cases hfirst : first key streams k with
  | none =>
    apply Eq.symm
    rw [find_eq_none_iff]
    intro a ha
    rcases (hmem a).mpr ha with ⟨s, hs, hmem⟩
    exact find_eq_none_iff.mp (first_eq_none_iff.mp hfirst s hs) a hmem
  | some a =>
    have ha := (hmem a).mp (exists_of_first hfirst)
    rw [← key_of_first hfirst, find_of_mem hnodup ha]

theorem Ascending.advance (h : Ascending key s) : Ascending key (KWay.advance key k s) := by
  cases s with
  | nil => exact h
  | cons a s =>
    rw [advance_cons]
    split
    . exact (List.pairwise_cons.mp h).2
    . exact h

theorem advance_suffix : advance key k s <:+ s := by
  cases s with
  | nil => exact List.suffix_refl _
  | cons a s =>
    rw [advance_cons]
    split
    . exact List.suffix_cons _ _
    . exact List.suffix_refl _

theorem find_advance_ne (h : k' ≠ k) : find key (advance key k s) k' = find key s k' := by
  cases s with
  | nil => rfl
  | cons a s =>
    rw [advance_cons]
    split
    . next heq => rw [find_cons, if_neg (by rw [heq]; exact h.symm)]
    . rfl

theorem find_tail_of_least {a : α} (hs : Ascending key (a :: s)) (hle : k ≤ key a) :
    find key s k = none := by
  rw [find_eq_none_iff]
  intro b hb heq
  have hlt := (List.pairwise_cons.mp hs).1 b hb
  rw [heq] at hlt
  exact absurd hle (not_le.mpr hlt)

theorem find_advance_self (hs : Ascending key s) (hle : ∀ a ∈ s.head?, k ≤ key a) :
    find key (advance key k s) k = none := by
  cases s with
  | nil => rfl
  | cons a s =>
    have htail := find_tail_of_least hs (hle a rfl)
    rw [advance_cons]
    split
    . exact htail
    . next hne => rw [find_cons, if_neg hne, htail]

theorem find_of_least (hs : Ascending key s) (hle : ∀ a ∈ s.head?, k ≤ key a) :
    find key s k = s.head?.filter fun a => key a = k := by
  cases s with
  | nil => rfl
  | cons a s =>
    rw [find_cons, find_tail_of_least hs (hle a rfl), List.head?_cons, Option.filter_some]
    by_cases h : key a = k <;> simp [h]

/--
Among ascending streams that do not start below `k`, the winner is the element that decides.
-/
theorem winner_eq_first (hs : ∀ s ∈ streams, Ascending key s) (hk : Least key k streams) :
    winner key k streams = first key streams k := by
  induction streams with
  | nil => rfl
  | cons s streams ih =>
    have ih := ih (fun s h => hs s (List.mem_cons_of_mem _ h))
      (fun s h => hk s (List.mem_cons_of_mem _ h))
    rw [first_cons, find_of_least (hs s List.mem_cons_self) (hk s List.mem_cons_self), ← ih,
      winner, List.findSome?_cons]
    cases s.head?.filter fun a => key a = k <;> rfl

theorem first_advance_ne (h : k' ≠ k) :
    first key (streams.map (advance key k)) k' = first key streams k' := by
  induction streams with
  | nil => rfl
  | cons s streams ih => rw [List.map_cons, first_cons, first_cons, ih, find_advance_ne h]

theorem length_advance_le (key : α → κ) (k : κ) (s : List α) : (advance key k s).length ≤ s.length :=
  advance_suffix.length_le

theorem sum_advance_le (key : α → κ) (k : κ) (streams : List (List α)) :
    ((streams.map (advance key k)).map List.length).sum ≤ (streams.map List.length).sum := by
  induction streams with
  | nil => exact Nat.le_refl _
  | cons s streams ih =>
    have := length_advance_le key k s
    simp only [List.map_cons, List.sum_cons]
    omega

theorem sum_advance_lt {a : α} (h : winner key k streams = some a) :
    ((streams.map (advance key k)).map List.length).sum < (streams.map List.length).sum := by
  induction streams with
  | nil => contradiction
  | cons s streams ih =>
    have hle := length_advance_le key k s
    have hsum := sum_advance_le key k streams
    simp only [List.map_cons, List.sum_cons]
    cases s with
    | nil =>
      have := ih h
      omega
    | cons b s =>
      by_cases hb : key b = k
      . have : advance key k (b :: s) = s := if_pos hb
        rw [this, List.length_cons]
        omega
      . have := ih (by
          rw [winner, List.findSome?_cons, List.head?_cons, Option.filter_some_neg (by simpa using hb)]
            at h
          exact h)
        omega

def leastKey (key : α → κ) (streams : List (List α)) : Option κ :=
  ((streams.filterMap List.head?).map key).min?

theorem leastKey_eq_some (h : leastKey key streams = some k) :
    Least key k streams ∧ ∃ a, winner key k streams = some a := by
  unfold leastKey at h
  rw [List.min?_eq_some_iff] at h
  rcases h with ⟨hmem, hle⟩
  constructor
  . intro s hs a ha
    apply hle
    apply List.mem_map_of_mem
    rw [List.mem_filterMap]
    exact ⟨s, hs, ha⟩
  . rw [← Option.ne_none_iff_exists']
    intro hnone
    rw [List.mem_map] at hmem
    rcases hmem with ⟨a, ha, hkey⟩
    rw [List.mem_filterMap] at ha
    rcases ha with ⟨s, hs, hhead⟩
    unfold winner at hnone
    rw [List.findSome?_eq_none_iff] at hnone
    have hfilter := hnone s hs
    rw [hhead, Option.filter_some, if_pos (decide_eq_true hkey)] at hfilter
    contradiction

theorem leastKey_eq_none_iff : leastKey key streams = none ↔ ∀ s ∈ streams, s = [] := by
  unfold leastKey
  rw [List.min?_eq_none_iff, List.map_eq_nil_iff, List.filterMap_eq_nil_iff]
  simp only [List.head?_eq_none_iff]

theorem leastKey_of_winner (hk : Least key k streams) {a : α} (ha : winner key k streams = some a) :
    leastKey key streams = some k := by
  rcases List.exists_of_findSome?_eq_some ha with ⟨s, hs, hhead⟩
  rw [Option.filter_eq_some_iff] at hhead
  unfold leastKey
  rw [List.min?_eq_some_iff]
  constructor
  . rw [List.mem_map]
    exact ⟨a, List.mem_filterMap.mpr ⟨s, hs, hhead.1⟩, by simpa using hhead.2⟩
  . intro k' hk'
    rw [List.mem_map] at hk'
    rcases hk' with ⟨b, hb, rfl⟩
    rw [List.mem_filterMap] at hb
    rcases hb with ⟨s', hs', hb⟩
    exact hk s' hs' b hb

/--
The first element with the key `k` that the rounds of a merge come to, whether the streams ascend or
not.
-/
def comesUp (key : α → κ) (k : κ) (streams : List (List α)) : Option α :=
  match _h : leastKey key streams with
  | none => none
  | some k' =>
    if k' = k then winner key k streams else comesUp key k (streams.map (advance key k'))
termination_by (streams.map List.length).sum
decreasing_by
  rcases (leastKey_eq_some _h).2 with ⟨a, ha⟩
  simpa using sum_advance_lt ha

theorem comesUp_of_nil (h : ∀ s ∈ streams, s = []) : comesUp key k streams = none := by
  unfold comesUp
  split
  . rfl
  . next hleast =>
    rw [leastKey_eq_none_iff.mpr h] at hleast
    contradiction

theorem comesUp_of_leastKey (h : leastKey key streams = some k) :
    comesUp key k streams = winner key k streams := by
  unfold comesUp
  split
  . next hleast =>
    rw [h] at hleast
    contradiction
  . next hleast =>
    rw [h] at hleast
    cases hleast
    exact if_pos rfl

theorem comesUp_advance (h : leastKey key streams = some k') (hne : k' ≠ k) :
    comesUp key k streams = comesUp key k (streams.map (advance key k')) := by
  rw [comesUp]
  split
  . next hleast =>
    rw [h] at hleast
    contradiction
  . next hleast =>
    rw [h] at hleast
    cases hleast
    exact if_neg hne

variable (key k) in
theorem comesUp_induct {motive : List (List α) → Prop}
    (done : ∀ streams, leastKey key streams = none → motive streams)
    (here : ∀ streams, leastKey key streams = some k → motive streams)
    (behind : ∀ streams k', leastKey key streams = some k' → k' ≠ k →
      motive (streams.map (advance key k')) → motive streams)
    (streams : List (List α)) : motive streams := by
  induction streams using comesUp.induct key k with
  | case1 streams hleast => exact done streams hleast
  | case2 streams hleast => exact here streams hleast
  | case3 streams k' hleast hne ih => exact behind streams k' hleast hne (by simpa using ih)

theorem comesUp_congr {streams' : List (List α)}
    (h : (streams.filter fun s => s.head?.isSome) = streams'.filter fun s => s.head?.isSome) :
    comesUp key k streams = comesUp key k streams' := by
  have hheads : ∀ ss : List (List α),
      (ss.filter fun s => s.head?.isSome).filterMap List.head? = ss.filterMap List.head? := by
    intro ss
    rw [List.filterMap_filter]
    apply List.filterMap_congr
    intro s _
    cases s <;> rfl
  have hwinner : ∀ (ss : List (List α)) k,
      winner key k (ss.filter fun s => s.head?.isSome) = winner key k ss := by
    intro ss k
    induction ss with
    | nil => rfl
    | cons s ss ih =>
      cases s with
      | nil => exact ih
      | cons a s =>
        rw [List.filter_cons_of_pos rfl]
        unfold winner at ih ⊢
        rw [List.findSome?_cons, List.findSome?_cons, ih]
  have hadvance : ∀ (ss : List (List α)) k,
      ((ss.map (advance key k)).filter fun s => s.head?.isSome)
        = ((ss.filter fun s => s.head?.isSome).map (advance key k)).filter
          fun s => s.head?.isSome := by
    intro ss k
    induction ss with
    | nil => rfl
    | cons s ss ih =>
      cases s with
      | nil => exact ih
      | cons a s =>
        rw [List.filter_cons_of_pos rfl, List.map_cons, List.map_cons, List.filter_cons,
          List.filter_cons, ih]
  have hleast : leastKey key streams' = leastKey key streams := by
    unfold leastKey
    rw [← hheads streams', ← hheads streams, h]
  induction streams using comesUp_induct key k generalizing streams' with
  | done streams hnone =>
    rw [hnone] at hleast
    rw [comesUp_of_nil (leastKey_eq_none_iff.mp hnone),
      comesUp_of_nil (leastKey_eq_none_iff.mp hleast)]
  | here streams hsome =>
    rw [hsome] at hleast
    rw [comesUp_of_leastKey hsome, comesUp_of_leastKey hleast, ← hwinner streams,
      ← hwinner streams', h]
  | behind streams k' hsome hne ih =>
    rw [hsome] at hleast
    rw [comesUp_advance hsome hne, comesUp_advance hleast hne]
    have hnext : ((streams.map (advance key k')).filter fun s => s.head?.isSome)
        = (streams'.map (advance key k')).filter fun s => s.head?.isSome := by
      rw [hadvance streams, hadvance streams', h]
    apply ih hnext
    unfold leastKey
    rw [← hheads (streams'.map _), ← hheads (streams.map _), hnext]

-- the element that a stream comes to `k` with, unless it starts with greater keys then
def comesTo (key : α → κ) (k : κ) (s : List α) : Option α :=
  (s.find? fun a => k ≤ key a).filter fun a => key a = k

theorem comesTo_eq_none (h : ∀ a ∈ s, key a ≠ k) : comesTo key k s = none := by
  unfold comesTo
  rw [Option.filter_eq_none_iff]
  intro a ha
  simpa using h a (List.mem_of_find?_eq_some ha)

theorem comesTo_append {a : α} (hs : Ascending key s) (ha : a ∈ s) (s' : List α) :
    comesTo key (key a) (s ++ s') = some a := by
  have hfind : (s.find? fun b => key a ≤ key b) = some a := by
    induction s with
    | nil => contradiction
    | cons b s ih =>
      rcases List.pairwise_cons.mp hs with ⟨hlt, hs⟩
      cases List.mem_cons.mp ha with
      | inl heq => rw [heq, List.find?_cons_of_pos (by simp)]
      | inr hmem =>
        rw [List.find?_cons_of_neg (by simpa using hlt a hmem)]
        exact ih hs hmem
  unfold comesTo
  rw [List.find?_append, hfind, Option.some_or, Option.filter_some_pos (by simp)]

theorem comesTo_of_least (h : ∀ a ∈ s.head?, k ≤ key a) :
    comesTo key k s = s.head?.filter fun a => key a = k := by
  cases s with
  | nil => rfl
  | cons a s =>
    have hle : k ≤ key a := h a rfl
    unfold comesTo
    rw [List.find?_cons_of_pos (by simpa using hle), List.head?_cons]

theorem winner_eq_comesTo (hk : Least key k streams) :
    winner key k streams = streams.findSome? (comesTo key k) := by
  induction streams with
  | nil => rfl
  | cons s streams ih =>
    have ih := ih fun s hs => hk s (List.mem_cons_of_mem _ hs)
    rw [List.findSome?_cons, comesTo_of_least (hk s List.mem_cons_self), ← ih]
    rfl

theorem comesTo_advance (h : k' < k) : comesTo key k (advance key k' s) = comesTo key k s := by
  cases s with
  | nil => rfl
  | cons a s =>
    rw [advance_cons]
    split
    . next heq =>
      unfold comesTo
      rw [List.find?_cons_of_neg (by simpa [heq] using h)]
    . rfl

theorem comesUp_of_comesTo {a : α} (h : streams.findSome? (comesTo key k) = some a) :
    comesUp key k streams = some a := by
  induction streams using comesUp_induct key k with
  | done streams hnone =>
    rcases List.exists_of_findSome?_eq_some h with ⟨s, hs, hcomes⟩
    rw [leastKey_eq_none_iff.mp hnone s hs] at hcomes
    contradiction
  | here streams hsome =>
    have hleast := (leastKey_eq_some hsome).1
    rw [comesUp_of_leastKey hsome, ← h, winner_eq_comesTo hleast]
  | behind streams k' hsome hne ih =>
    rcases List.exists_of_findSome?_eq_some h with ⟨s, hs, hcomes⟩
    have hlt : k' < k := by
      cases s with
      | nil => contradiction
      | cons b s =>
        have hle := (leastKey_eq_some hsome).1 _ hs b rfl
        by_cases hb : k ≤ key b
        . unfold comesTo at hcomes
          rw [List.find?_cons_of_pos (by simpa using hb), Option.filter_eq_some_iff] at hcomes
          have heq := Option.some.inj hcomes.1
          have hkey : key a = k := by simpa using hcomes.2
          rw [heq, hkey] at hle
          exact lt_of_le_of_ne hle hne
        . exact hle.trans_lt (not_le.mp hb)
    rw [comesUp_advance hsome hne]
    apply ih
    have hcomp : comesTo key k ∘ advance key k' = comesTo key k :=
      funext fun s => comesTo_advance hlt
    rw [List.findSome?_map, hcomp, h]

/--
Where the streams ascend, a key comes up with the element that decides.
-/
theorem comesUp_eq_first (hs : ∀ s ∈ streams, Ascending key s) :
    comesUp key k streams = first key streams k := by
  induction streams using comesUp_induct key k with
  | done streams hnone =>
    have hnil := leastKey_eq_none_iff.mp hnone
    rw [comesUp_of_nil hnil]
    apply Eq.symm
    rw [first_eq_none_iff]
    intro s hs
    rw [hnil s hs]
    rfl
  | here streams hsome =>
    rw [comesUp_of_leastKey hsome]
    exact winner_eq_first hs (leastKey_eq_some hsome).1
  | behind streams k' hsome hne ih =>
    rw [comesUp_advance hsome hne, ← first_advance_ne (Ne.symm hne)]
    apply ih
    intro s hs'
    rw [List.mem_map] at hs'
    rcases hs' with ⟨s', hs', rfl⟩
    exact (hs s' hs').advance

/-! The trace of a merge -/

/--
The states that the merge of `start` gets to: the streams as they are then, the keys that have been
dealt with, and what has been emitted, in this order. A key that was dealt with before is not emitted
again, whatever the streams hold.
-/
inductive Merge (key : α → κ) (live : α → Bool) (start : List (List α)) :
    List (List α) → List κ → List α → Prop where
  | start : Merge key live start start [] []
  | drop {streams : List (List α)} {seen : List κ} {out : List α}
    (h : Merge key live start streams seen out) :
    Merge key live start (streams.filter fun s => s.head?.isSome) seen out
  | round {streams : List (List α)} {seen : List κ} {out : List α} {k : κ} {a : α}
    (h : Merge key live start streams seen out) (hleast : Least key k streams)
    (hwinner : winner key k streams = some a) :
    Merge key live start (streams.map (advance key k)) (seen.insert k)
      (if k ∉ seen ∧ live a = true then out ++ [a] else out)

namespace Merge

variable {live : α → Bool} {start : List (List α)} {seen : List κ} {emitted : List α}

theorem exists_suffix (h : Merge key live start streams seen emitted) :
    ∀ s ∈ streams, ∃ s' ∈ start, s <:+ s' := by
  induction h with
  | start =>
    intro s hs
    exact ⟨s, hs, List.suffix_refl _⟩
  | drop _ ih =>
    intro s hs
    exact ih s (List.mem_of_mem_filter hs)
  | round _ _ _ ih =>
    intro s hs
    rw [List.mem_map] at hs
    rcases hs with ⟨s1, hs1, rfl⟩
    rcases ih s1 hs1 with ⟨s', hs', hsuffix⟩
    exact ⟨s', hs', advance_suffix.trans hsuffix⟩

theorem exists_of_winner (h : Merge key live start streams seen emitted) {a : α}
    (hwinner : winner key k streams = some a) : key a = k ∧ ∃ s ∈ start, a ∈ s := by
  rcases List.exists_of_findSome?_eq_some hwinner with ⟨s, hs, hhead⟩
  rw [Option.filter_eq_some_iff] at hhead
  rcases h.exists_suffix s hs with ⟨s', hs', hsuffix⟩
  exact ⟨by simpa using hhead.2, s', hs', hsuffix.subset (List.mem_of_head? hhead.1)⟩

theorem of_mem (h : Merge key live start streams seen emitted) :
    ∀ a ∈ emitted, live a = true ∧ key a ∈ seen ∧ ∃ s ∈ start, a ∈ s := by
  induction h with
  | start => simp
  | drop _ ih => exact ih
  | round h _ hwinner ih =>
    rcases h.exists_of_winner hwinner with ⟨hkey, hstart⟩
    intro b hb
    split at hb
    . next hnew =>
      cases List.mem_append.mp hb with
      | inl hold =>
        rcases ih b hold with ⟨hlive, hseen, hs⟩
        exact ⟨hlive, List.mem_insert_of_mem hseen, hs⟩
      | inr heq =>
        rw [List.mem_singleton] at heq
        subst heq
        refine ⟨hnew.2, ?_, hstart⟩
        rw [hkey]
        exact List.mem_insert_self
    . rcases ih b hb with ⟨hlive, hseen, hs⟩
      exact ⟨hlive, List.mem_insert_of_mem hseen, hs⟩

theorem nodup (h : Merge key live start streams seen emitted) : (emitted.map key).Nodup := by
  induction h with
  | start => exact List.nodup_nil
  | drop _ ih => exact ih
  | round h _ hwinner ih =>
    split
    . next hnew =>
      rw [List.map_append, List.map_singleton, (h.exists_of_winner hwinner).1,
        List.nodup_append]
      refine ⟨ih, List.nodup_singleton _, ?_⟩
      intro k' hmem k hk heq
      rw [List.mem_singleton.mp hk] at heq
      rw [heq] at hmem
      rw [List.mem_map] at hmem
      rcases hmem with ⟨b, hb, heq⟩
      apply hnew.1
      rw [← heq]
      exact (h.of_mem b hb).2.1
    . exact ih

theorem find_concat (a : α) (k' : κ) :
    find key (emitted ++ [a]) k'
      = (find key emitted k').or (if key a = k' then some a else none) := by
  rw [find, List.find?_append, List.find?_singleton]
  by_cases hkey : key a = k' <;> simp [hkey, find]

/--
A key that has been dealt with has been emitted as the element it came up with, unless this is a
tombstone. Any other key will come up as it would have at the start.
-/
theorem comesUp (h : Merge key live start streams seen emitted) (k : κ) :
    (k ∈ seen ∧ find key emitted k = (KWay.comesUp key k start).filter live)
      ∨ (k ∉ seen ∧ find key emitted k = none
        ∧ KWay.comesUp key k streams = KWay.comesUp key k start) := by
  induction h with
  | start => exact Or.inr ⟨by simp, rfl, rfl⟩
  | @drop streams _ _ _ ih =>
    have hcomes : KWay.comesUp key k (streams.filter fun s => s.head?.isSome)
        = KWay.comesUp key k streams := by
      apply comesUp_congr
      rw [List.filter_filter]
      simp only [Bool.and_self]
    rw [hcomes]
    exact ih
  | @round streams seen out k' a h hleast hwinner ih =>
    have hkey := (h.exists_of_winner hwinner).1
    have hleastKey := leastKey_of_winner hleast hwinner
    by_cases heq : k' = k
    . subst heq
      apply Or.inl
      refine ⟨List.mem_insert_self, ?_⟩
      rcases ih with ⟨hseen, hfind⟩ | ⟨hnew, hfind, hcomes⟩
      . rw [if_neg fun hcond => hcond.1 hseen]
        exact hfind
      . rw [← hcomes, comesUp_of_leastKey hleastKey, hwinner, Option.filter_some]
        by_cases hlive : live a = true
        . rw [if_pos ⟨hnew, hlive⟩, if_pos hlive, find_concat, hfind, if_pos hkey]
          rfl
        . rw [if_neg fun hcond => hlive hcond.2, if_neg hlive]
          exact hfind
    . have hmem : k ∈ seen.insert k' ↔ k ∈ seen := by simp [Ne.symm heq]
      have hfind : find key (if k' ∉ seen ∧ live a = true then out ++ [a] else out) k
          = find key out k := by
        split
        . rw [find_concat, hkey, if_neg heq, Option.or_none]
        . rfl
      rw [hmem, hfind, ← comesUp_advance hleastKey heq]
      exact ih

theorem find_eq (h : Merge key live start streams seen emitted) (hnil : ∀ s ∈ streams, s = [])
    (k : κ) : find key emitted k = (KWay.comesUp key k start).filter live := by
  rcases h.comesUp k with ⟨-, hfind⟩ | ⟨-, hfind, hcomes⟩
  . exact hfind
  . rw [hfind, ← hcomes, comesUp_of_nil hnil, Option.filter_none]

theorem comesUp_of_mem (h : Merge key live start streams seen emitted) {a : α} (ha : a ∈ emitted) :
    KWay.comesUp key (key a) start = some a := by
  have hfind := find_of_mem h.nodup ha
  rcases h.comesUp (key a) with ⟨-, hcomes⟩ | ⟨hnew, -⟩
  . rw [hfind] at hcomes
    exact (Option.filter_eq_some_iff.mp hcomes.symm).1
  . exact absurd (h.of_mem a ha).2.1 hnew

theorem ascending_of_mem (h : Merge key live start streams seen emitted)
    (hstart : ∀ s ∈ start, Ascending key s) : ∀ s ∈ streams, Ascending key s := by
  intro s hs
  rcases h.exists_suffix s hs with ⟨s', hs', hsuffix⟩
  exact (hstart s' hs').sublist hsuffix.sublist

theorem ascending (h : Merge key live start streams seen emitted)
    (hstart : ∀ s ∈ start, Ascending key s) :
    Ascending key emitted
      ∧ ∀ a ∈ emitted, ∀ s ∈ streams, ∀ b ∈ s, key a < key b := by
  induction h with
  | start => exact ⟨List.Pairwise.nil, by simp⟩
  | drop _ ih =>
    refine ⟨ih.1, ?_⟩
    intro a ha s hs
    exact ih.2 a ha s (List.mem_of_mem_filter hs)
  | @round streams seen out k a h hleast hwinner ih =>
    have hasc := h.ascending_of_mem hstart
    have hkey := (h.exists_of_winner hwinner).1
    -- the streams go on beyond the key
    have hlt : ∀ s ∈ streams.map (advance key k), ∀ b ∈ s, k < key b := by
      intro s hs b hb
      rw [List.mem_map] at hs
      rcases hs with ⟨s', hs', rfl⟩
      have hnone := find_eq_none_iff.mp (find_advance_self (hasc s' hs') (hleast s' hs')) b hb
      apply lt_of_le_of_ne _ (Ne.symm hnone)
      have hb' := advance_suffix.subset hb
      cases s' with
      | nil => contradiction
      | cons x s' =>
        have hx := hleast _ hs' x rfl
        cases List.mem_cons.mp hb' with
        | inl heq => rwa [heq]
        | inr hmem => exact hx.trans (le_of_lt ((List.pairwise_cons.mp (hasc _ hs')).1 b hmem))
    have hold : ∀ b ∈ out, ∀ s ∈ streams.map (advance key k), ∀ b' ∈ s, key b < key b' := by
      intro b hb s hs
      rw [List.mem_map] at hs
      rcases hs with ⟨s', hs', rfl⟩
      intro b' hb'
      exact ih.2 b hb s' hs' b' (advance_suffix.subset hb')
    split
    . constructor
      . unfold Ascending
        rw [List.pairwise_append]
        refine ⟨ih.1, List.pairwise_singleton _ _, ?_⟩
        intro b hb b' hb'
        rw [List.mem_singleton] at hb'
        subst hb'
        rcases List.exists_of_findSome?_eq_some hwinner with ⟨s, hs, hhead⟩
        rw [Option.filter_eq_some_iff] at hhead
        exact ih.2 b hb s hs b' (List.mem_of_head? hhead.1)
      . intro b hb s hs b' hb'
        cases List.mem_append.mp hb with
        | inl hmem => exact hold b hmem s hs b' hb'
        | inr heq =>
          rw [List.mem_singleton] at heq
          rw [heq, hkey]
          exact hlt s hs b' hb'
    . exact ⟨ih.1, hold⟩

end Merge

end KWay
