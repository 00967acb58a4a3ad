import Mathlib

/-!
This module contains maps that are stored as a stack of layers, the newest first, of which the first
one that binds a key decides. A binding may be a tombstone, which hides the key.

A point lookup may overlook some of the bindings that a scan of a layer shows. A stack is sound at a
key where both ways to read it agree.
-/

namespace Layers

structure Layer (α β : Type) where
  find : α → Option β
  scan : α → Option β
  scan_of_find : ∀ {a b}, find a = some b → scan a = some b

variable {α β : Type}

namespace Layer

def Exact (l : Layer α β) : Prop :=
  ∀ a, l.find a = l.scan a

theorem find_eq_none {l : Layer α β} {a : α} (h : l.scan a = none) : l.find a = none := by
  cases hfind : l.find a with
  | none => rfl
  | some b =>
    rw [l.scan_of_find hfind] at h
    contradiction

end Layer

def found (ls : List (Layer α β)) (a : α) : Option β :=
  ls.findSome? fun l => l.find a

def newest (ls : List (Layer α β)) (a : α) : Option β :=
  ls.findSome? fun l => l.scan a

@[simp]
theorem found_cons (l : Layer α β) (ls : List (Layer α β)) (a : α) :
    found (l :: ls) a = (l.find a).or (found ls a) := by
  rw [found, List.findSome?_cons]
  cases l.find a <;> rfl

@[simp]
theorem newest_cons (l : Layer α β) (ls : List (Layer α β)) (a : α) :
    newest (l :: ls) a = (l.scan a).or (newest ls a) := by
  rw [newest, List.findSome?_cons]
  cases l.scan a <;> rfl

@[simp]
theorem found_append (ls ls' : List (Layer α β)) (a : α) :
    found (ls ++ ls') a = (found ls a).or (found ls' a) := by
  rw [found, List.findSome?_append]
  rfl

@[simp]
theorem newest_append (ls ls' : List (Layer α β)) (a : α) :
    newest (ls ++ ls') a = (newest ls a).or (newest ls' a) := by
  rw [newest, List.findSome?_append]
  rfl

theorem found_of_exact {ls : List (Layer α β)} (h : ∀ l ∈ ls, l.Exact) (a : α) :
    found ls a = newest ls a := by
  induction ls with
  | nil => rfl
  | cons l ls ih =>
    rw [found_cons, newest_cons, h l List.mem_cons_self a,
      ih (fun l hl => h l (List.mem_cons_of_mem _ hl))]

theorem newest_eq_none_iff (ls : List (Layer α β)) (a : α) :
    newest ls a = none ↔ ∀ l ∈ ls, l.scan a = none := by
  simp [newest]

theorem exists_of_found {ls : List (Layer α β)} {a : α} {b : β} (h : found ls a = some b) :
    ∃ l ∈ ls, l.scan a = some b := by
  rcases List.exists_of_findSome?_eq_some h with ⟨l, hl, hfind⟩
  exact ⟨l, hl, l.scan_of_find hfind⟩

theorem exists_of_newest {ls : List (Layer α β)} {a : α} {b : β} (h : newest ls a = some b) :
    ∃ l ∈ ls, l.scan a = some b :=
  List.exists_of_findSome?_eq_some h

variable (live : β → Bool)

-- both ways to read the stack show `r` at the key `a`
structure Shows (ls : List (Layer α β)) (a : α) (r : Option β) : Prop where
  found_eq : (found ls a).filter live = r
  newest_eq : (newest ls a).filter live = r

variable {live} {l : Layer α β} {ls : List (Layer α β)} {a : α} {r : Option β}

theorem Shows.nil : Shows live [] a (none : Option β) :=
  ⟨rfl, rfl⟩

theorem Shows.push_miss (h : Shows live ls a r) (hmiss : l.scan a = none) :
    Shows live (l :: ls) a r := by
  constructor
  . rw [found_cons, Layer.find_eq_none hmiss, Option.none_or, h.found_eq]
  . rw [newest_cons, hmiss, Option.none_or, h.newest_eq]

theorem Shows.push_hit {b : β} (hfind : l.find a = some b) :
    Shows live (l :: ls) a ((some b).filter live) := by
  constructor
  . rw [found_cons, hfind, Option.some_or]
  . rw [newest_cons, l.scan_of_find hfind, Option.some_or]

theorem Shows.push_repeat (h : Shows live ls a r)
    (hrepeat : ∀ b, l.scan a = some b → newest ls a = some b) : Shows live (l :: ls) a r := by
  cases hscan : l.scan a with
  | none => exact h.push_miss hscan
  | some b =>
    have hbelow := hrepeat b hscan
    have hr : (some b).filter live = r := by
      rw [← hbelow]
      exact h.newest_eq
    constructor
    . rw [found_cons]
      cases hfind : l.find a with
      | none => rw [Option.none_or, h.found_eq]
      | some b' =>
        have hbb : b' = b := Option.some.inj ((l.scan_of_find hfind).symm.trans hscan)
        rw [hbb, Option.some_or, hr]
    . rw [newest_cons, hscan, Option.some_or, hr]

theorem Shows.append_repeat {ls' : List (Layer α β)} (h : Shows live ls a r)
    (hrepeat : ∀ l ∈ ls', ∀ b, l.scan a = some b → newest ls a = some b) :
    Shows live (ls' ++ ls) a r := by
  induction ls' with
  | nil => exact h
  | cons l ls' ih =>
    have hrest : ∀ l' ∈ ls', ∀ b, l'.scan a = some b → newest ls a = some b :=
      fun l' hl' => hrepeat l' (List.mem_cons_of_mem _ hl')
    apply (ih hrest).push_repeat
    intro b hb
    rw [newest_append]
    cases hnewest : newest ls' a with
    | none => rw [Option.none_or, hrepeat l List.mem_cons_self b hb]
    | some b' =>
      rcases exists_of_newest hnewest with ⟨l', hl', hb'⟩
      have := hrest l' hl' b' hb'
      rw [hrepeat l List.mem_cons_self b hb] at this
      rw [Option.some_or, this]

-- the newest binding of `a` is no tombstone, or there is nothing but tombstones
def Buried (live : β → Bool) (ls : List (Layer α β)) (a : α) : Prop :=
  ∀ b, newest ls a = some b → live b = false → ∀ l ∈ ls, ∀ b', l.scan a = some b' → live b' = false

-- `outs` holds the newest bindings of `ls` without the tombstones
structure Merged (live : β → Bool) (outs ls : List (Layer α β)) : Prop where
  exact : ∀ l ∈ outs, l.Exact
  newest_eq : ∀ a, newest outs a = (newest ls a).filter live

variable {outs rest : List (Layer α β)}

theorem Buried.shows (h : Buried live ls a) (hls : Shows live ls a (none : Option β))
    (hrest : rest ⊆ ls) : Shows live rest a none := by
  -- whatever is left of the key is a tombstone
  have hdead : ∀ l ∈ rest, ∀ b, l.scan a = some b → live b = false := by
    intro l hl b hb
    cases hnewest : newest ls a with
    | none =>
      rw [(newest_eq_none_iff ls a).mp hnewest l (hrest hl)] at hb
      contradiction
    | some b' =>
      have hb' : live b' = false := by
        have := hls.newest_eq
        rw [hnewest, Option.filter_eq_none_iff] at this
        simpa using this b' rfl
      exact h b' hnewest hb' l (hrest hl) b hb
  constructor
  . rw [Option.filter_eq_none_iff]
    intro b hb
    rcases exists_of_found hb with ⟨l, hl, hscan⟩
    simp [hdead l hl b hscan]
  . rw [Option.filter_eq_none_iff]
    intro b hb
    rcases exists_of_newest hb with ⟨l, hl, hscan⟩
    simp [hdead l hl b hscan]

/--
On top of what is left of the stack, a merge of it finds what the stack shows, provided that what is
left finds nothing of a key that is hidden.
-/
theorem Merged.found_append (hmerged : Merged live outs ls) (h : Shows live ls a r)
    (hrest : r = none → (found rest a).filter live = none) :
    (found (outs ++ rest) a).filter live = r := by
  have houts := hmerged.newest_eq a
  rw [h.newest_eq] at houts
  rw [Layers.found_append, found_of_exact hmerged.exact, houts]
  cases hr : r with
  | some b =>
    have hnewest := h.newest_eq
    rw [hr, Option.filter_eq_some_iff] at hnewest
    rw [Option.some_or, Option.filter_some_pos hnewest.2]
  | none => exact hrest hr

theorem Merged.shows (hmerged : Merged live outs ls) (h : Shows live ls a r)
    (hrest : r = none → Shows live rest a none) : Shows live (outs ++ rest) a r := by
  refine ⟨hmerged.found_append h fun hr => (hrest hr).found_eq, ?_⟩
  have houts := hmerged.newest_eq a
  rw [h.newest_eq] at houts
  rw [newest_append, houts]
  cases hr : r with
  | some b =>
    have hnewest := h.newest_eq
    rw [hr, Option.filter_eq_some_iff] at hnewest
    rw [Option.some_or, Option.filter_some_pos hnewest.2]
  | none => exact (hrest hr).newest_eq

end Layers
