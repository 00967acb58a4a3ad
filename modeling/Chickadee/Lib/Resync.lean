import Mathlib

/-!
This module contains a reader of record streams that resynchronises: where no record parses it goes
on to the next offset, until one does.
-/

namespace Resync

/--
A parser of the record a string starts with. It says how much of the string the record takes.
-/
structure Parser (α β : Type) where
  parse : List α → Option (β × Nat)
  pos_of_parse : ∀ {bs b n}, parse bs = some (b, n) → 0 < n
  le_of_parse : ∀ {bs b n}, parse bs = some (b, n) → n ≤ bs.length

variable {α β : Type}

/--
The first offset at which a record parses, with the record and the length of it.
-/
def scan (parse : List α → Option (β × Nat)) (bytes : List α) : Option (Nat × β × Nat) :=
  (List.range bytes.length).findSome? fun p => (parse (bytes.drop p)).map fun r => (p, r)

theorem scan_eq_none_iff (parse : List α → Option (β × Nat)) (bytes : List α) :
    scan parse bytes = none ↔ ∀ q < bytes.length, parse (bytes.drop q) = none := by
  simp [scan]

theorem scan_eq_some_iff (parse : List α → Option (β × Nat)) (bytes : List α) (p : Nat)
    (r : β × Nat) :
    scan parse bytes = some (p, r)
      ↔
    p < bytes.length ∧ parse (bytes.drop p) = some r ∧ ∀ q < p, parse (bytes.drop q) = none := by
  unfold scan
  generalize bytes.length = n
  induction n with
  | zero => simp
  | succ n ih =>
    rw [List.range_succ, List.findSome?_append]
    cases hfind : (List.range n).findSome? _ with
    | some x =>
      rw [hfind] at ih
      simp only [Option.some_or, ih]
      constructor
      . intro ⟨hp, h⟩
        exact ⟨by omega, h⟩
      . intro ⟨hp, hparse, hfirst⟩
        refine ⟨?_, hparse, hfirst⟩
        -- a hit below `n` rules out that `n` is the first one
        by_contra hge
        have hpn : p = n := by omega
        obtain ⟨q, hq, hx⟩ := List.exists_of_findSome?_eq_some hfind
        rw [hfirst q (by have := List.mem_range.mp hq; omega)] at hx
        simp at hx
    | none =>
      rw [List.findSome?_eq_none_iff] at hfind
      simp only [List.mem_range, Option.map_eq_none_iff] at hfind
      simp only [Option.none_or, List.findSome?_cons, List.findSome?_nil]
      cases hn : parse (bytes.drop n) with
      | none =>
        simp only [Option.map_none, reduceCtorEq, false_iff]
        rintro ⟨hp, hparse, -⟩
        by_cases hpn : p = n
        . subst hpn
          simp [hn] at hparse
        . simp [hfind p (by omega)] at hparse
      | some r' =>
        simp only [Option.map_some, Option.some.injEq, Prod.mk.injEq]
        constructor
        . rintro ⟨rfl, rfl⟩
          exact ⟨by omega, hn, hfind⟩
        . rintro ⟨hp, hparse, -⟩
          have hpn : n = p := by
            by_contra hne
            simp [hfind p (by omega)] at hparse
          subst hpn
          rw [hn] at hparse
          exact ⟨rfl, Option.some.inj hparse⟩

variable (P : Parser α β) (bytes : List α) (bound : Nat)

/--
All records a reader at `pos` returns, with their offsets. It stops once it stands beyond `bound`,
and where it still reads it reads to the end of `bytes`.
-/
def drain (pos : Nat) : List (Nat × β) :=
  if pos ≤ bound then
    match _h : scan P.parse (bytes.drop pos) with
    | none => []
    | some (p, b, n) => (pos + p, b) :: drain (pos + p + n)
  else
    []
termination_by bound + 1 - pos
decreasing_by
  have := P.pos_of_parse ((scan_eq_some_iff _ _ _ _).mp _h).2.1
  omega

variable {bytes bound}

theorem drain_of_gt {pos : Nat} (h : bound < pos) : drain P bytes bound pos = [] := by
  unfold drain
  rw [if_neg (by omega)]

theorem drain_of_scan_none {pos : Nat} (h : scan P.parse (bytes.drop pos) = none) :
    drain P bytes bound pos = [] := by
  unfold drain
  split
  . split
    . rfl
    . next heq =>
      rw [h] at heq
      contradiction
  . rfl

theorem drain_of_scan_some {pos p n : Nat} {b : β} (hpos : pos ≤ bound)
    (h : scan P.parse (bytes.drop pos) = some (p, b, n)) :
    drain P bytes bound pos = (pos + p, b) :: drain P bytes bound (pos + p + n) := by
  rw [drain, if_pos hpos]
  split
  . next heq =>
    rw [h] at heq
    contradiction
  . next heq =>
    rw [h] at heq
    cases heq
    rfl

theorem drain_of_parse {pos n : Nat} {b : β} (hpos : pos ≤ bound)
    (h : P.parse (bytes.drop pos) = some (b, n)) :
    drain P bytes bound pos = (pos, b) :: drain P bytes bound (pos + n) := by
  apply drain_of_scan_some P hpos (p := 0)
  rw [scan_eq_some_iff]
  refine ⟨?_, by simpa using h, by simp⟩
  have := P.pos_of_parse h
  have := P.le_of_parse h
  omega

theorem drain_of_gap {pos k : Nat} (hk : pos + k ≤ bound)
    (hgap : ∀ q < k, P.parse (bytes.drop (pos + q)) = none) :
    drain P bytes bound pos = drain P bytes bound (pos + k) := by
  have hshift : ∀ q, (bytes.drop (pos + k)).drop q = (bytes.drop pos).drop (k + q) := by
    intro q
    simp [Nat.add_assoc]
  cases hscan : scan P.parse (bytes.drop (pos + k)) with
  | none =>
    rw [drain_of_scan_none P hscan]
    apply drain_of_scan_none
    rw [scan_eq_none_iff] at hscan ⊢
    intro q hq
    by_cases hqk : q < k
    . simpa using hgap q hqk
    . have := hscan (q - k) (by simp only [List.length_drop] at hq ⊢; omega)
      rw [hshift, show k + (q - k) = q by omega] at this
      exact this
  | some r =>
    obtain ⟨p, b, n⟩ := r
    have hskip : scan P.parse (bytes.drop pos) = some (k + p, b, n) := by
      rw [scan_eq_some_iff] at hscan ⊢
      obtain ⟨hp, hparse, hfirst⟩ := hscan
      refine ⟨by simp only [List.length_drop] at hp ⊢; omega, by rw [← hshift]; exact hparse, ?_⟩
      intro q hq
      by_cases hqk : q < k
      . simpa using hgap q hqk
      . have := hfirst (q - k) (by omega)
        rw [hshift, show k + (q - k) = q by omega] at this
        exact this
    rw [drain_of_scan_some P hk hscan, drain_of_scan_some P (by omega) hskip]
    simp only [Nat.add_assoc]

theorem drain_of_forall_none {pos : Nat}
    (h : ∀ q, pos ≤ q → q < bytes.length → P.parse (bytes.drop q) = none) :
    drain P bytes bound pos = [] := by
  apply drain_of_scan_none
  rw [scan_eq_none_iff]
  intro q hq
  rw [List.drop_drop]
  simp only [List.length_drop] at hq
  exact h _ (by omega) (by omega)

theorem exists_mem_drain {pos q : Nat} (hpos : pos ≤ bound)
    (h : (P.parse (bytes.drop (pos + q))).isSome) :
    ∃ r ∈ drain P bytes bound pos, r.1 ≤ pos + q := by
  rcases Option.isSome_iff_exists.mp h with ⟨r, hr⟩
  cases hscan : scan P.parse (bytes.drop pos) with
  | none =>
    rw [scan_eq_none_iff] at hscan
    have hlt : q < (bytes.drop pos).length := by
      have hpos := P.pos_of_parse hr
      have hle := P.le_of_parse hr
      rw [List.length_drop] at hle ⊢
      omega
    have hnone := hscan q hlt
    rw [List.drop_drop, hr] at hnone
    contradiction
  | some s =>
    rcases s with ⟨p, b, n⟩
    rw [drain_of_scan_some P hpos hscan]
    refine ⟨(pos + p, b), List.mem_cons_self, ?_⟩
    rcases (scan_eq_some_iff _ _ _ _).mp hscan with ⟨-, -, hfirst⟩
    by_contra hgt
    have hnone := hfirst q (by omega)
    rw [List.drop_drop, hr] at hnone
    contradiction

theorem parse_of_mem_drain {pos p : Nat} {b : β} (h : (p, b) ∈ drain P bytes bound pos) :
    pos ≤ p ∧ ∃ n, P.parse (bytes.drop p) = some (b, n) := by
  induction pos using drain.induct P bytes bound with
  | case1 pos hpos hnone =>
    rw [drain_of_scan_none P hnone] at h
    contradiction
  | case2 pos hpos q c n hsome ih =>
    rw [drain_of_scan_some P hpos hsome] at h
    rcases List.mem_cons.mp h with h | h
    . cases h
      obtain ⟨-, hparse, -⟩ := (scan_eq_some_iff _ _ _ _).mp hsome
      rw [List.drop_drop] at hparse
      exact ⟨by omega, n, hparse⟩
    . have := ih h
      exact ⟨by omega, this.2⟩
  | case3 pos hpos =>
    rw [drain_of_gt P (by omega)] at h
    contradiction

/--
Where the bytes that follow change nothing before them, what has been read stays, and reading goes on
behind it.
-/
theorem drain_append {tail : List α} {bound' pos : Nat} (hpos : pos ≤ bytes.length)
    (hbound : bytes.length ≤ bound) (hbound' : bytes.length ≤ bound')
    (h : ∀ q < bytes.length, P.parse ((bytes ++ tail).drop q) = P.parse (bytes.drop q)) :
    drain P (bytes ++ tail) bound' pos
      =
    drain P bytes bound pos ++ drain P (bytes ++ tail) bound' bytes.length := by
  induction pos using drain.induct P bytes bound with
  | case1 pos hle hnone =>
    rw [drain_of_scan_none P hnone, List.nil_append]
    rw [scan_eq_none_iff] at hnone
    rw [drain_of_gap P (k := bytes.length - pos) (by omega), Nat.add_sub_cancel' hpos]
    intro q hq
    rw [h _ (by omega), ← List.drop_drop]
    exact hnone q (by rw [List.length_drop]; exact hq)
  | case2 pos hle q b n hsome ih =>
    rcases (scan_eq_some_iff _ _ _ _).mp hsome with ⟨hq, hparse, hfirst⟩
    rw [List.length_drop] at hq
    have hnext := P.le_of_parse hparse
    rw [List.drop_drop] at hparse hnext
    rw [List.length_drop] at hnext
    rw [drain_of_scan_some P hle hsome, List.cons_append, ← ih (by omega),
      drain_of_gap P (k := q) (by omega), drain_of_parse P (by omega)]
    . rw [h _ (by omega), hparse]
    . intro q' hq'
      rw [h _ (by omega), ← List.drop_drop]
      exact hfirst q' hq'
  | case3 pos hgt => omega

theorem length_drain_le (bytes : List α) (bound pos : Nat) :
    (drain P bytes bound pos).length ≤ bound + 1 - pos := by
  induction pos using drain.induct P bytes bound with
  | case1 pos hpos hnone => simp [drain_of_scan_none P hnone]
  | case2 pos hpos q c n hsome ih =>
    have := P.pos_of_parse ((scan_eq_some_iff _ _ _ _).mp hsome).2.1
    rw [drain_of_scan_some P hpos hsome, List.length_cons]
    omega
  | case3 pos hpos => simp [drain_of_gt P (Nat.not_le.mp hpos)]

theorem drain_sorted (bytes : List α) (bound pos : Nat) :
    (drain P bytes bound pos).Pairwise (fun r r' => r.1 < r'.1) := by
  induction pos using drain.induct P bytes bound with
  | case1 pos hpos hnone => simp [drain_of_scan_none P hnone]
  | case2 pos hpos q c n hsome ih =>
    have hn := P.pos_of_parse ((scan_eq_some_iff _ _ _ _).mp hsome).2.1
    rw [drain_of_scan_some P hpos hsome]
    apply List.Pairwise.cons _ ih
    intro r hr
    have := (parse_of_mem_drain P hr).1
    dsimp only
    omega
  | case3 pos hpos => simp [drain_of_gt P (Nat.not_le.mp hpos)]

end Resync
