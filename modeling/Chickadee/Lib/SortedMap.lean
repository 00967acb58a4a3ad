import Mathlib

/-!
This module contains finite maps represented by the list of their bindings in ascending order of
the keys.
-/

structure SortedMap (α β : Type) [LinearOrder α] where
  entries : List (α × β)
  sorted : entries.Pairwise (fun p q => p.1 < q.1)

namespace SortedMap

variable {α β : Type} [LinearOrder α]

def empty : SortedMap α β :=
  ⟨[], List.Pairwise.nil⟩

def keys (m : SortedMap α β) : List α :=
  m.entries.map Prod.fst

def values (m : SortedMap α β) : List β :=
  m.entries.map Prod.snd

def get? (m : SortedMap α β) (a : α) : Option β :=
  m.entries.lookup a

def insertEntry (a : α) (b : β) : List (α × β) → List (α × β)
  | [] => [(a, b)]
  | p :: ps =>
    if a < p.1 then
      (a, b) :: p :: ps
    else if a = p.1 then
      (a, b) :: ps
    else
      p :: insertEntry a b ps

theorem mem_insertEntry {a : α} {b : β} {ps : List (α × β)} {q : α × β}
    (h : q ∈ insertEntry a b ps) : q = (a, b) ∨ q ∈ ps := by
  induction ps with
  | nil => simpa [insertEntry] using h
  | cons p ps ih =>
    unfold insertEntry at h
    split at h
    . simpa using h
    . split at h
      . rcases List.mem_cons.mp h with h | h
        . exact Or.inl h
        . exact Or.inr (List.mem_cons_of_mem _ h)
      . rcases List.mem_cons.mp h with h | h
        . exact Or.inr (h ▸ List.mem_cons_self)
        . exact (ih h).imp id (List.mem_cons_of_mem _)

theorem insertEntry_sorted {ps : List (α × β)} (a : α) (b : β)
    (h : ps.Pairwise (fun p q => p.1 < q.1)) :
    (insertEntry a b ps).Pairwise (fun p q => p.1 < q.1) := by
  induction ps with
  | nil => simp [insertEntry]
  | cons p ps ih =>
    obtain ⟨hp, hps⟩ := List.pairwise_cons.mp h
    unfold insertEntry
    split
    . next hlt =>
      apply List.Pairwise.cons _ h
      intro q hq
      rcases List.mem_cons.mp hq with hq | hq
      . exact hq ▸ hlt
      . exact hlt.trans (hp q hq)
    . split
      . next heq =>
        apply List.Pairwise.cons _ hps
        intro q hq
        exact heq ▸ hp q hq
      . next hge hne =>
        apply List.Pairwise.cons _ (ih hps)
        intro q hq
        rcases mem_insertEntry hq with hq | hq
        . rw [hq]
          exact lt_of_le_of_ne (not_lt.mp hge) (Ne.symm hne)
        . exact hp q hq

def insert (m : SortedMap α β) (a : α) (b : β) : SortedMap α β :=
  ⟨insertEntry a b m.entries, insertEntry_sorted a b m.sorted⟩

def erase (m : SortedMap α β) (a : α) : SortedMap α β :=
  ⟨m.entries.filter (fun p => p.1 ≠ a), m.sorted.filter _⟩

def isEmpty (m : SortedMap α β) : Bool :=
  m.entries.isEmpty

def size (m : SortedMap α β) : Nat :=
  m.entries.length

@[simp]
theorem get?_empty (a : α) : (empty : SortedMap α β).get? a = none := rfl

theorem lookup_cons (p : α × β) (ps : List (α × β)) (x : α) :
    (p :: ps).lookup x = if x = p.1 then some p.2 else ps.lookup x := by
  obtain ⟨a, b⟩ := p
  by_cases hx : x = a
  . simp [hx]
  . have : (x == a) = false := beq_false_of_ne hx
    simp [List.lookup_cons, this, hx]

theorem lookup_insertEntry (a : α) (b : β) (ps : List (α × β)) (x : α) :
    (insertEntry a b ps).lookup x = if x = a then some b else ps.lookup x := by
  induction ps with
  | nil => simp [insertEntry, lookup_cons]
  | cons p ps ih =>
    unfold insertEntry
    split
    . rw [lookup_cons]
    . split
      . next heq => by_cases hx : x = a <;> simp [lookup_cons, hx, ← heq]
      . next hne =>
        by_cases hx : x = p.1
        . simp [lookup_cons, hx, Ne.symm hne]
        . simp [lookup_cons, hx, ih]

@[simp]
theorem get?_insert (m : SortedMap α β) (a : α) (b : β) (x : α) :
    (m.insert a b).get? x = if x = a then some b else m.get? x :=
  lookup_insertEntry a b m.entries x

theorem lookup_eq_some_iff {ps : List (α × β)} (h : ps.Pairwise (fun p q => p.1 < q.1)) (a : α)
    (b : β) : ps.lookup a = some b ↔ (a, b) ∈ ps := by
  induction ps with
  | nil => simp
  | cons p ps ih =>
    obtain ⟨hp, hps⟩ := List.pairwise_cons.mp h
    rw [lookup_cons, List.mem_cons]
    by_cases ha : a = p.1
    . have hnot : (a, b) ∉ ps := fun hmem => absurd ha (ne_of_gt (hp _ hmem))
      subst ha
      simp only [if_true, hnot, or_false]
      constructor
      . rintro ⟨⟩
        rfl
      . intro heq
        rw [← heq]
    . have hne : (a, b) ≠ p := fun heq => ha (heq ▸ rfl)
      simp [ha, hne, ih hps]

theorem get?_eq_some_iff (m : SortedMap α β) (a : α) (b : β) :
    m.get? a = some b ↔ (a, b) ∈ m.entries :=
  lookup_eq_some_iff m.sorted a b

theorem get?_eq_none_iff (m : SortedMap α β) (a : α) : m.get? a = none ↔ a ∉ m.keys := by
  rw [← not_iff_not, not_not, ← ne_eq, Option.ne_none_iff_exists']
  simp only [get?_eq_some_iff, keys, List.mem_map, Prod.exists, exists_and_right, exists_eq_right]

theorem mem_keys_iff_of_get? {m m' : SortedMap α β} {a : α} (h : m'.get? a = m.get? a) :
    a ∈ m'.keys ↔ a ∈ m.keys := by
  rw [← not_iff_not, ← get?_eq_none_iff, ← get?_eq_none_iff, h]

theorem mem_keys_of_get? {m : SortedMap α β} {a : α} {b : β} (h : m.get? a = some b) :
    a ∈ m.keys := by
  by_contra hnot
  rw [(m.get?_eq_none_iff a).mpr hnot] at h
  contradiction

theorem keys_sorted (m : SortedMap α β) : m.keys.Pairwise (· < ·) :=
  List.pairwise_map.mpr m.sorted

theorem mem_keys_insert (m : SortedMap α β) (a : α) (b : β) (x : α) :
    x ∈ (m.insert a b).keys ↔ x = a ∨ x ∈ m.keys := by
  rw [← not_iff_not, ← get?_eq_none_iff, get?_insert, not_or, ← get?_eq_none_iff]
  by_cases hx : x = a <;> simp [hx]

theorem lookup_filter_ne (ps : List (α × β)) (a x : α) :
    (ps.filter (fun p => p.1 ≠ a)).lookup x = if x = a then none else ps.lookup x := by
  induction ps with
  | nil => simp
  | cons p ps ih =>
    by_cases hp : p.1 = a
    . simp only [hp, ne_eq, not_true_eq_false, decide_false, Bool.false_eq_true,
        not_false_eq_true, List.filter_cons_of_neg]
      rw [ih, lookup_cons, hp]
      by_cases hx : x = a <;> simp [hx]
    . rw [List.filter_cons_of_pos (by simpa using hp), lookup_cons, lookup_cons, ih]
      by_cases hx : x = p.1
      . simp [hx, hp]
      . simp [hx]

@[simp]
theorem get?_erase (m : SortedMap α β) (a x : α) :
    (m.erase a).get? x = if x = a then none else m.get? x :=
  lookup_filter_ne m.entries a x

theorem insertEntry_of_forall_lt {ps : List (α × β)} {a : α} (b : β) (h : ∀ p ∈ ps, p.1 < a) :
    insertEntry a b ps = ps ++ [(a, b)] := by
  induction ps with
  | nil => rfl
  | cons p ps ih =>
    have hp : p.1 < a := h p List.mem_cons_self
    unfold insertEntry
    rw [if_neg (not_lt_of_gt hp), if_neg (ne_of_gt hp),
      ih (fun q hq => h q (List.mem_cons_of_mem _ hq))]
    rfl

theorem entries_insert_of_forall_lt {m : SortedMap α β} {a : α} (b : β) (h : ∀ x ∈ m.keys, x < a) :
    (m.insert a b).entries = m.entries ++ [(a, b)] := by
  apply insertEntry_of_forall_lt
  intro p hp
  exact h p.1 (List.mem_map_of_mem hp)

theorem insertEntry_of_eq {ps qs : List (α × β)} {a : α} {b : β} (b' : β)
    (h : (ps ++ (a, b) :: qs).Pairwise (fun p q => p.1 < q.1)) :
    insertEntry a b' (ps ++ (a, b) :: qs) = ps ++ (a, b') :: qs := by
  induction ps with
  | nil => simp [insertEntry]
  | cons p ps ih =>
    rw [List.cons_append, List.pairwise_cons] at h
    have hp : p.1 < a := h.1 (a, b) (by simp)
    rw [List.cons_append, insertEntry, if_neg (not_lt_of_gt hp), if_neg (ne_of_gt hp), ih h.2]
    rfl

theorem entries_insert_of_eq {m : SortedMap α β} {ps qs : List (α × β)} {a : α} {b : β} (b' : β)
    (h : m.entries = ps ++ (a, b) :: qs) : (m.insert a b').entries = ps ++ (a, b') :: qs := by
  have hsorted := m.sorted
  change insertEntry a b' m.entries = _
  rw [h] at hsorted ⊢
  exact insertEntry_of_eq b' hsorted

theorem insertEntry_perm {ps : List (α × β)} {a : α} (b : β) (h : ∀ p ∈ ps, p.1 ≠ a) :
    (insertEntry a b ps).Perm ((a, b) :: ps) := by
  induction ps with
  | nil => exact List.Perm.refl _
  | cons p ps ih =>
    have hp : a ≠ p.1 := Ne.symm (h p List.mem_cons_self)
    unfold insertEntry
    split
    . exact List.Perm.refl _
    . have hrest := ih fun q hq => h q (List.mem_cons_of_mem _ hq)
      exact (hrest.cons p).trans (List.Perm.swap _ _ _)

theorem values_insert_perm {m : SortedMap α β} {a : α} (b : β) (h : m.get? a = none) :
    (m.insert a b).values.Perm (b :: m.values) := by
  apply (insertEntry_perm b _).map Prod.snd
  intro p hp heq
  rw [get?_eq_none_iff] at h
  apply h
  rw [← heq]
  exact List.mem_map_of_mem hp

theorem size_insert_le (m : SortedMap α β) (a : α) (b : β) : (m.insert a b).size ≤ m.size + 1 := by
  have hentries : ∀ ps : List (α × β), (insertEntry a b ps).length ≤ ps.length + 1 := by
    intro ps
    induction ps with
    | nil => simp [insertEntry]
    | cons p ps ih =>
      unfold insertEntry
      split
      . simp
      . split
        . simp
        . simpa using ih
  exact hentries m.entries

theorem ext_get? {m n : SortedMap α β} (h : ∀ a, m.get? a = n.get? a) : m = n := by
  obtain ⟨ps, hps⟩ := m
  obtain ⟨qs, hqs⟩ := n
  have hmem : ∀ p, p ∈ ps ↔ p ∈ qs := by
    rintro ⟨a, b⟩
    rw [← lookup_eq_some_iff hps, ← lookup_eq_some_iff hqs]
    exact iff_of_eq (congrArg (· = some b) (h a))
  have hperm : ps.Perm qs := by
    apply (List.perm_ext_iff_of_nodup _ _).mpr hmem
    . exact hps.imp (fun hlt heq => absurd (congrArg Prod.fst heq) (ne_of_lt hlt))
    . exact hqs.imp (fun hlt heq => absurd (congrArg Prod.fst heq) (ne_of_lt hlt))
  have heq : ps = qs := by
    apply hperm.eq_of_pairwise _ hps hqs
    intro p q _ _ hpq hqp
    exact absurd hpq (lt_asymm hqp)
  subst heq
  rfl

theorem insert_insert (m : SortedMap α β) (a : α) (b b' : β) :
    (m.insert a b).insert a b' = m.insert a b' := by
  apply ext_get?
  intro x
  by_cases hx : x = a <;> simp [hx]

theorem values_perm_erase {m : SortedMap α β} {a : α} {b : β} (h : m.get? a = some b) :
    m.values.Perm (b :: (m.erase a).values) := by
  have heq : m = (m.erase a).insert a b := by
    apply ext_get?
    intro x
    by_cases hx : x = a <;> simp [hx, h]
  have hperm := values_insert_perm b (m.get?_erase a a ▸ if_pos rfl)
  rw [← heq] at hperm
  exact hperm

theorem erase_of_get?_eq_none {m : SortedMap α β} {a : α} (h : m.get? a = none) : m.erase a = m := by
  apply ext_get?
  intro x
  by_cases hx : x = a <;> simp [hx, h]

theorem erase_insert (m : SortedMap α β) (a : α) (b : β) : (m.insert a b).erase a = m.erase a := by
  apply ext_get?
  intro x
  by_cases hx : x = a <;> simp [hx]

theorem isEmpty_iff (m : SortedMap α β) : m.isEmpty ↔ ∀ a, m.get? a = none := by
  constructor
  . intro h a
    have : m.entries = [] := List.isEmpty_iff.mp h
    simp [get?, this]
  . intro h
    have : m = empty := ext_get? h
    simp [this, isEmpty, empty]

end SortedMap
