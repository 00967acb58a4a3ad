import Mathlib

/-!
This module contains programs over a disk whose system calls may fail, together with the program
logic to reason about them.

A run carries the failures that are injected into it and the calls it has made. As a program does
nothing more once a failure has reached its caller, what a crash leaves behind is what the run leaves
behind in which the call the crash precedes fails.
-/

namespace Faulty

structure Step (κ δ : Type) where
  call : κ
  before : δ

/--
The state of a run. `faults i = some n` makes call number `i` fail after `n` units of its work,
`history` holds the calls made so far, the latest first.
-/
structure Machine (κ δ σ : Type) where
  disk : δ
  self : σ
  faults : Nat → Option Nat
  history : List (Step κ δ)

inductive Failure (ε : Type) where
  -- a call failed because `faults` says so
  | fault
  -- the program or a call gave up for a reason of its own
  | raised (err : ε)
  deriving DecidableEq, Repr

inductive Result (κ δ ε σ α : Type) where
  | ok (a : α) (m : Machine κ δ σ)
  | error (e : Failure ε) (m : Machine κ δ σ)

variable {κ δ ε σ τ ρ α β γ : Type}

namespace Result

def machine : Result κ δ ε σ α → Machine κ δ σ
  | ok _ m => m
  | error _ m => m

def value? : Result κ δ ε σ α → Option α
  | ok a _ => some a
  | error _ _ => none

end Result

namespace Machine

def Faultless (m : Machine κ δ σ) : Prop :=
  ∀ i, m.faults i = none

def boot (disk : δ) (self : σ) : Machine κ δ σ :=
  { disk := disk, self := self, faults := fun _ => none, history := [] }

def withSelf (m : Machine κ δ σ) (self : τ) : Machine κ δ τ :=
  { disk := m.disk, self := self, faults := m.faults, history := m.history }

def withFaults (m : Machine κ δ σ) (faults : Nat → Option Nat) : Machine κ δ σ :=
  { disk := m.disk, self := m.self, faults := faults, history := m.history }

-- a run that begins where `m` is, with its calls numbered from 0 on
def resume (m : Machine κ δ σ) (faults : Nat → Option Nat) : Machine κ δ σ :=
  { disk := m.disk, self := m.self, faults := faults, history := [] }

def record (m : Machine κ δ σ) (call : κ) (disk : δ) (self : σ) : Machine κ δ σ :=
  { disk := disk, self := self, faults := m.faults, history := ⟨call, m.disk⟩ :: m.history }

-- the disk satisfies `T` and has done so at every call
def Always (T : δ → Prop) (m : Machine κ δ σ) : Prop :=
  T m.disk ∧ ∀ s ∈ m.history, T s.before

def FailedAt (m : Machine κ δ σ) (call : κ) : Prop :=
  ∃ before history, m.history = ⟨call, before⟩ :: history ∧ (m.faults history.length).isSome

theorem Always.mono {T T' : δ → Prop} {m : Machine κ δ σ} (h : m.Always T)
    (hT : ∀ d, T d → T' d) : m.Always T' :=
  ⟨hT _ h.1, fun s hs => hT _ (h.2 s hs)⟩

theorem Always.record {T : δ → Prop} {m : Machine κ δ σ} (h : m.Always T) (call : κ) (self : σ) :
    (m.record call m.disk self).Always T := by
  refine ⟨h.1, ?_⟩
  intro s hs
  cases List.mem_cons.mp hs with
  | inl heq =>
    rw [heq]
    exact h.1
  | inr hmem => exact h.2 s hmem

@[simp]
theorem withSelf_disk (m : Machine κ δ σ) (self : τ) : (m.withSelf self).disk = m.disk := rfl

@[simp]
theorem withSelf_self (m : Machine κ δ σ) (self : τ) : (m.withSelf self).self = self := rfl

@[simp]
theorem withSelf_withSelf (m : Machine κ δ σ) (self : τ) (self' : ρ) :
    (m.withSelf self).withSelf self' = m.withSelf self' := rfl

@[simp]
theorem withSelf_eq (m : Machine κ δ σ) : m.withSelf m.self = m := rfl

@[simp]
theorem record_disk (m : Machine κ δ σ) (call : κ) (d : δ) (s : σ) :
    (m.record call d s).disk = d := rfl

@[simp]
theorem record_self (m : Machine κ δ σ) (call : κ) (d : δ) (s : σ) :
    (m.record call d s).self = s := rfl

theorem boot_faultless (disk : δ) (self : σ) : (boot disk self : Machine κ δ σ).Faultless := by
  intro
  rfl

end Machine

-- `m'` is a later moment of the run that `m` is a moment of
structure Extends (m : Machine κ δ σ) (m' : Machine κ δ τ) : Prop where
  faults_eq : m'.faults = m.faults
  history_suffix : m.history <:+ m'.history
  disk_mem : m.disk = m'.disk ∨ ∃ s ∈ m'.history, s.before = m.disk

namespace Extends

theorem refl (m : Machine κ δ σ) : Extends m m :=
  ⟨rfl, List.suffix_refl _, Or.inl rfl⟩

theorem trans {m : Machine κ δ σ} {m' : Machine κ δ τ} {m'' : Machine κ δ ρ}
    (h : Extends m m') (h' : Extends m' m'') : Extends m m'' := by
  constructor
  . rw [h'.faults_eq, h.faults_eq]
  . apply h.history_suffix.trans h'.history_suffix
  . rcases h.disk_mem with heq | ⟨s, hs, heq⟩
    . rw [heq]
      apply h'.disk_mem
    . apply Or.inr
      exact ⟨s, h'.history_suffix.subset hs, heq⟩

theorem record (m : Machine κ δ σ) (call : κ) (d : δ) (s : σ) : Extends m (m.record call d s) := by
  constructor
  . rfl
  . apply List.suffix_cons
  . apply Or.inr
    exact ⟨_, List.mem_cons_self, rfl⟩

theorem of_withSelf {m : Machine κ δ σ} {m' : Machine κ δ τ} {self : ρ}
    (h : Extends (m.withSelf self) m') : Extends m m' :=
  ⟨h.faults_eq, h.history_suffix, h.disk_mem⟩

theorem withSelf {m : Machine κ δ σ} {m' : Machine κ δ τ} (h : Extends m m') (self : ρ) :
    Extends m (m'.withSelf self) :=
  ⟨h.faults_eq, h.history_suffix, h.disk_mem⟩

theorem faultless {m : Machine κ δ σ} {m' : Machine κ δ τ} (h : Extends m m') :
    m'.Faultless ↔ m.Faultless := by
  unfold Machine.Faultless
  rw [h.faults_eq]

theorem length_le {m : Machine κ δ σ} {m' : Machine κ δ τ} (h : Extends m m') :
    m.history.length ≤ m'.history.length :=
  h.history_suffix.length_le

theorem always {m : Machine κ δ σ} {m' : Machine κ δ τ} {T : δ → Prop} (h : Extends m m')
    (hm' : m'.Always T) : m.Always T := by
  constructor
  . rcases h.disk_mem with heq | ⟨s, hs, heq⟩
    . rw [heq]
      exact hm'.1
    . rw [← heq]
      exact hm'.2 s hs
  . intro s hs
    exact hm'.2 s (h.history_suffix.subset hs)

end Extends

/-! Programs -/

def Result.withFaults (faults : Nat → Option Nat) : Result κ δ ε σ α → Result κ δ ε σ α
  | ok a m => ok a (m.withFaults faults)
  | error e m => error e (m.withFaults faults)

structure Io (κ δ ε σ α : Type) where
  run : Machine κ δ σ → Result κ δ ε σ α
  extends_run : ∀ m, Extends m (run m).machine
  faultless_run : ∀ m m', run m = .error .fault m' → ¬m.Faultless
  -- a run looks at the failures of its own calls only
  congr_run : ∀ m faults, (∀ i < (run m).machine.history.length, faults i = m.faults i) →
    run (m.withFaults faults) = (run m).withFaults faults

namespace Io

theorem extends_of_ok {x : Io κ δ ε σ α} {m m' : Machine κ δ σ} {a : α}
    (h : x.run m = .ok a m') : Extends m m' := by
  have := x.extends_run m
  rw [h] at this
  exact this

theorem extends_of_error {x : Io κ δ ε σ α} {m m' : Machine κ δ σ} {e : Failure ε}
    (h : x.run m = .error e m') : Extends m m' := by
  have := x.extends_run m
  rw [h] at this
  exact this

theorem ext_run {x y : Io κ δ ε σ α} (h : ∀ m, x.run m = y.run m) : x = y := by
  cases x
  cases y
  simp only [mk.injEq]
  funext m
  apply h

def bindRun (x : Machine κ δ σ → Result κ δ ε σ α)
    (f : α → Machine κ δ σ → Result κ δ ε σ β) (m : Machine κ δ σ) : Result κ δ ε σ β :=
  match x m with
  | .ok a m' => f a m'
  | .error e m' => .error e m'

/--
A run that has come to its end is the same with any failures of later calls.
-/
theorem run_withFaults_of_ok {x : Io κ δ ε σ α} {m m' : Machine κ δ σ} {a : α}
    {faults : Nat → Option Nat} (h : x.run m = .ok a m')
    (hfaults : ∀ i < m'.history.length, faults i = m.faults i) :
    x.run (m.withFaults faults) = .ok a (m'.withFaults faults) := by
  rw [x.congr_run m faults (by rw [h]; exact hfaults), h]
  rfl

theorem run_withFaults_of_error {x : Io κ δ ε σ α} {m m' : Machine κ δ σ} {e : Failure ε}
    {faults : Nat → Option Nat} (h : x.run m = .error e m')
    (hfaults : ∀ i < m'.history.length, faults i = m.faults i) :
    x.run (m.withFaults faults) = .error e (m'.withFaults faults) := by
  rw [x.congr_run m faults (by rw [h]; exact hfaults), h]
  rfl

instance : Monad (Io κ δ ε σ) where
  pure a :=
    { run := fun m => .ok a m
      extends_run := Extends.refl
      faultless_run := by simp
      congr_run := by
        intros
        rfl }
  bind x f :=
    { run := bindRun x.run fun a => (f a).run
      extends_run := by
        intro m
        unfold bindRun
        split
        . next h => exact (extends_of_ok h).trans ((f _).extends_run _)
        . next h => exact extends_of_error h
      faultless_run := by
        intro m m'
        unfold bindRun
        split
        . next h =>
          intro hf
          rw [← (extends_of_ok h).faultless]
          apply (f _).faultless_run _ _ hf
        . next h =>
          intro hf
          cases hf
          apply x.faultless_run _ _ h
      congr_run := by
        intro m faults hfaults
        cases hx : x.run m with
        | ok a m1 =>
          have hbind : bindRun x.run (fun a => (f a).run) m = (f a).run m1 := by
            unfold bindRun
            rw [hx]
          have hm1 := extends_of_ok hx
          rw [hbind] at hfaults ⊢
          have hx' := run_withFaults_of_ok hx fun i hi =>
            hfaults i (Nat.lt_of_lt_of_le hi ((f a).extends_run m1).length_le)
          unfold bindRun
          rw [hx']
          apply (f a).congr_run
          intro i hi
          rw [hfaults i hi, hm1.faults_eq]
        | error e m1 =>
          have hbind : bindRun x.run (fun a => (f a).run) m = .error e m1 := by
            unfold bindRun
            rw [hx]
          rw [hbind] at hfaults ⊢
          unfold bindRun
          rw [run_withFaults_of_error hx hfaults]
          rfl }

@[simp]
theorem run_pure (a : α) (m : Machine κ δ σ) : (pure a : Io κ δ ε σ α).run m = .ok a m := rfl

theorem run_bind (x : Io κ δ ε σ α) (f : α → Io κ δ ε σ β) (m : Machine κ δ σ) :
    (x >>= f).run m
      =
    match x.run m with
    | .ok a m' => (f a).run m'
    | .error e m' => .error e m' := rfl

theorem run_bind_of_ok {x : Io κ δ ε σ α} {f : α → Io κ δ ε σ β} {m m' : Machine κ δ σ} {a : α}
    (h : x.run m = .ok a m') : (x >>= f).run m = (f a).run m' := by
  rw [run_bind, h]

theorem run_bind_of_error {x : Io κ δ ε σ α} {f : α → Io κ δ ε σ β} {m m' : Machine κ δ σ}
    {e : Failure ε} (h : x.run m = .error e m') : (x >>= f).run m = .error e m' := by
  rw [run_bind, h]

theorem exists_of_run_bind {x : Io κ δ ε σ α} {f : α → Io κ δ ε σ β} {m m' : Machine κ δ σ} {b : β}
    (h : (x >>= f).run m = .ok b m') :
    ∃ a m1, x.run m = .ok a m1 ∧ (f a).run m1 = .ok b m' := by
  cases hx : x.run m with
  | ok a m1 =>
    rw [run_bind_of_ok hx] at h
    exact ⟨a, m1, rfl, h⟩
  | error e m1 =>
    rw [run_bind_of_error hx] at h
    contradiction

theorem id_map' (x : Io κ δ ε σ α) : id <$> x = x := by
  apply ext_run
  intro m
  change bindRun x.run _ m = x.run m
  unfold bindRun
  cases x.run m <;> rfl

theorem bind_assoc' (x : Io κ δ ε σ α) (f : α → Io κ δ ε σ β) (g : β → Io κ δ ε σ γ) :
    x >>= f >>= g = x >>= fun a => f a >>= g := by
  apply ext_run
  intro m
  change bindRun (bindRun x.run _) _ m = bindRun x.run _ m
  unfold bindRun
  cases x.run m <;> rfl

instance : LawfulMonad (Io κ δ ε σ) :=
  LawfulMonad.mk' _ id_map' (fun _ _ => rfl) bind_assoc'

/--
A system call. `act` is what the call does when it goes through, `torn n` is what it leaves behind
when it fails after `n` units of work.
-/
def syscall (call : κ) (act : δ → σ → Except ε α × δ × σ) (torn : Nat → δ → σ → δ × σ) :
    Io κ δ ε σ α where
  run m :=
    match m.faults m.history.length with
    | some n => .error .fault (m.record call (torn n m.disk m.self).1 (torn n m.disk m.self).2)
    | none =>
      match act m.disk m.self with
      | (.ok a, d, s) => .ok a (m.record call d s)
      | (.error e, d, s) => .error (.raised e) (m.record call d s)
  extends_run := by
    intro m
    split
    . apply Extends.record
    . split <;> apply Extends.record
  faultless_run := by
    intro m m'
    split
    . next hf =>
      intro _ hm
      rw [hm] at hf
      contradiction
    . split <;> simp
  congr_run := by
    intro m faults hfaults
    -- the call that is made is number `m.history.length`
    have hcall : faults m.history.length = m.faults m.history.length := by
      apply hfaults
      split
      . exact Nat.lt_succ_self _
      . split <;> exact Nat.lt_succ_self _
    change (match faults m.history.length with | some n => _ | none => _) = _
    rw [hcall]
    split
    . rfl
    . change (match act m.disk m.self with | (.ok a, d, s) => _ | (.error e, d, s) => _) = _
      split <;> rfl

def raise (err : ε) : Io κ δ ε σ α where
  run m := .error (.raised err) m
  extends_run := Extends.refl
  faultless_run := by simp
  congr_run := by
    intros
    rfl

def getSelf : Io κ δ ε σ σ where
  run m := .ok m.self m
  extends_run := Extends.refl
  faultless_run := by simp
  congr_run := by
    intros
    rfl

def setSelf (self : σ) : Io κ δ ε σ Unit where
  run m := .ok () (m.withSelf self)
  extends_run m := (Extends.refl m).withSelf self
  faultless_run := by simp
  congr_run := by
    intros
    rfl

-- the disk as it is now, to compute the fuel of a loop from: not a call
def peek : Io κ δ ε σ δ where
  run m := .ok m.disk m
  extends_run := Extends.refl
  faultless_run := by simp
  congr_run := by
    intros
    rfl

/--
Run `x` on the part of `self` that `get` and `put` select.
-/
def zoom (get : σ → τ) (put : σ → τ → σ) (x : Io κ δ ε τ α) : Io κ δ ε σ α where
  run m :=
    match x.run (m.withSelf (get m.self)) with
    | .ok a m' => .ok a (m'.withSelf (put m.self m'.self))
    | .error e m' => .error e (m'.withSelf (put m.self m'.self))
  extends_run := by
    intro m
    split
    . next h => exact (extends_of_ok h).of_withSelf.withSelf _
    . next h => exact (extends_of_error h).of_withSelf.withSelf _
  faultless_run := by
    intro m m'
    split
    . simp
    . next h =>
      intro hf
      cases hf
      apply x.faultless_run _ _ h
  congr_run := by
    intro m faults hfaults
    change (match x.run ((m.withSelf (get m.self)).withFaults faults) with
      | .ok a m' => _ | .error e m' => _) = _
    cases hx : x.run (m.withSelf (get m.self)) with
    | ok a m1 =>
      simp only [hx] at hfaults ⊢
      rw [run_withFaults_of_ok hx hfaults]
      rfl
    | error e m1 =>
      simp only [hx] at hfaults ⊢
      rw [run_withFaults_of_error hx hfaults]
      rfl

/--
Run `x` on a local value, which is dropped when `x` fails.
-/
def on (self : τ) (x : Io κ δ ε τ α) : Io κ δ ε σ (α × τ) where
  run m :=
    match x.run (m.withSelf self) with
    | .ok a m' => .ok (a, m'.self) (m'.withSelf m.self)
    | .error e m' => .error e (m'.withSelf m.self)
  extends_run := by
    intro m
    split
    . next h => exact (extends_of_ok h).of_withSelf.withSelf _
    . next h => exact (extends_of_error h).of_withSelf.withSelf _
  faultless_run := by
    intro m m'
    split
    . simp
    . next h =>
      intro hf
      cases hf
      apply x.faultless_run _ _ h
  congr_run := by
    intro m faults hfaults
    change (match x.run ((m.withSelf self).withFaults faults) with
      | .ok a m' => _ | .error e m' => _) = _
    cases hx : x.run (m.withSelf self) with
    | ok a m1 =>
      simp only [hx] at hfaults ⊢
      rw [run_withFaults_of_ok hx hfaults]
      rfl
    | error e m1 =>
      simp only [hx] at hfaults ⊢
      rw [run_withFaults_of_error hx hfaults]
      rfl

/--
Run `x` and hand its failure to the program instead of failing.
-/
def attempt (x : Io κ δ ε σ α) : Io κ δ ε σ (Except (Failure ε) α) where
  run m :=
    match x.run m with
    | .ok a m' => .ok (.ok a) m'
    | .error e m' => .ok (.error e) m'
  extends_run := by
    intro m
    split
    . next h => exact extends_of_ok h
    . next h => exact extends_of_error h
  faultless_run := by
    intro m m'
    split <;> simp
  congr_run := by
    intro m faults hfaults
    cases hx : x.run m with
    | ok a m1 =>
      simp only [hx] at hfaults
      simp only [run_withFaults_of_ok hx hfaults]
      rfl
    | error e m1 =>
      simp only [hx] at hfaults
      simp only [run_withFaults_of_error hx hfaults]
      rfl

theorem run_getSelf (m : Machine κ δ σ) : (getSelf : Io κ δ ε σ σ).run m = .ok m.self m := rfl

theorem run_syscall_of_ok {call : κ} {act : δ → σ → Except ε α × δ × σ}
    {torn : Nat → δ → σ → δ × σ} {m : Machine κ δ σ} {a : α} {d : δ} {s : σ}
    (hfault : m.faults m.history.length = none) (hact : act m.disk m.self = (.ok a, d, s)) :
    (syscall call act torn : Io κ δ ε σ α).run m = .ok a (m.record call d s) := by
  simp only [syscall, hfault, hact]

theorem run_syscall_of_fault {call : κ} {act : δ → σ → Except ε α × δ × σ}
    {torn : Nat → δ → σ → δ × σ} {m : Machine κ δ σ} {n : Nat}
    (hfault : m.faults m.history.length = some n) :
    (syscall call act torn : Io κ δ ε σ α).run m
      =
    .error .fault (m.record call (torn n m.disk m.self).1 (torn n m.disk m.self).2) := by
  simp only [syscall, hfault]

theorem run_attempt_of_ok {x : Io κ δ ε σ α} {m m' : Machine κ δ σ} {a : α}
    (h : x.run m = .ok a m') : (attempt x).run m = .ok (.ok a) m' := by
  simp only [attempt, h]

theorem run_attempt_of_error {x : Io κ δ ε σ α} {m m' : Machine κ δ σ} {e : Failure ε}
    (h : x.run m = .error e m') : (attempt x).run m = .ok (.error e) m' := by
  simp only [attempt, h]

theorem run_zoom_of_ok {get : σ → τ} {put : σ → τ → σ} {x : Io κ δ ε τ α} {m : Machine κ δ σ}
    {m' : Machine κ δ τ} {a : α} (h : x.run (m.withSelf (get m.self)) = .ok a m') :
    (zoom get put x).run m = .ok a (m'.withSelf (put m.self m'.self)) := by
  simp only [zoom, h]

theorem machine_zoom (get : σ → τ) (put : σ → τ → σ) (x : Io κ δ ε τ α) (m : Machine κ δ σ) :
    ((zoom get put x).run m).machine
      =
    (x.run (m.withSelf (get m.self))).machine.withSelf
      (put m.self (x.run (m.withSelf (get m.self))).machine.self) := by
  simp only [zoom]
  cases x.run (m.withSelf (get m.self)) <;> rfl

end Io

/-! The program logic -/

/--
If `T` holds of the disk throughout the run of `x` from `m`, then the run establishes `Q` when it
succeeds and `E` when it fails.
-/
def wp (T : δ → Prop) (x : Io κ δ ε σ α) (Q : α → Machine κ δ σ → Prop)
    (E : Failure ε → Machine κ δ σ → Prop) (m : Machine κ δ σ) : Prop :=
  (x.run m).machine.Always T →
    match x.run m with
    | .ok a m' => Q a m'
    | .error e m' => E e m'

section Rules

variable {T : δ → Prop} {Q Q' : α → Machine κ δ σ → Prop} {E E' : Failure ε → Machine κ δ σ → Prop}
variable {m : Machine κ δ σ}

/--
`T` holds at the end, too.
-/
theorem wp_conclude {x : Io κ δ ε σ α}
    (h : wp T x (fun a m' => m'.Always T → Q a m') (fun e m' => m'.Always T → E e m') m) :
    wp T x Q E m := by
  unfold wp at *
  intro hT
  have := h hT
  cases hx : x.run m with
  | ok a m' =>
    rw [hx] at hT this
    exact this hT
  | error e m' =>
    rw [hx] at hT this
    exact this hT

theorem wp.machine {x : Io κ δ ε σ α} {P : Machine κ δ σ → Prop}
    (h : wp T x (fun _ m' => P m') (fun _ m' => P m') m) (hT : (x.run m).machine.Always T) :
    P (x.run m).machine := by
  have h := h hT
  cases hrun : x.run m with
  | ok a m' =>
    rw [hrun] at h
    exact h
  | error e m' =>
    rw [hrun] at h
    exact h

theorem wp_mono {x : Io κ δ ε σ α} (h : wp T x Q' E' m)
    (hQ : ∀ a m', Extends m m' → Q' a m' → Q a m')
    (hE : ∀ e m', Extends m m' → (e = .fault → ¬m.Faultless) → E' e m' → E e m') :
    wp T x Q E m := by
  intro hT
  have := h hT
  cases hx : x.run m with
  | ok a m' =>
    simp only [hx] at this ⊢
    apply hQ _ _ (Io.extends_of_ok hx) this
  | error e m' =>
    simp only [hx] at this ⊢
    apply hE _ _ (Io.extends_of_error hx) _ this
    intro he
    subst he
    apply x.faultless_run _ _ hx

theorem wp_assume {x : Io κ δ ε σ α} (h : m.Always T → wp T x Q E m) : wp T x Q E m := by
  intro hT
  exact h ((x.extends_run m).always hT) hT

theorem wp_and {x : Io κ δ ε σ α} (h : wp T x Q E m) (h' : wp T x Q' E' m) :
    wp T x (fun a m' => Q a m' ∧ Q' a m') (fun e m' => E e m' ∧ E' e m') m := by
  intro hT
  have h := h hT
  have h' := h' hT
  cases hrun : x.run m with
  | ok a m' =>
    rw [hrun] at h h'
    exact ⟨h, h'⟩
  | error e m' =>
    rw [hrun] at h h'
    exact ⟨h, h'⟩

theorem wp_pure {a : α} (h : Q a m) : wp T (pure a) Q E m := by
  intro
  exact h

theorem wp_bind {x : Io κ δ ε σ α} {f : α → Io κ δ ε σ β} {Q : β → Machine κ δ σ → Prop}
    (h : wp T x (fun a m' => wp T (f a) Q E m') E m) : wp T (x >>= f) Q E m := by
  intro hT
  cases hx : x.run m with
  | ok a m' =>
    rw [Io.run_bind_of_ok hx] at hT ⊢
    have hm' : wp T (f a) Q E m' := by
      have := h (by rw [hx]; exact ((f a).extends_run m').always hT)
      simpa only [hx] using this
    apply hm' hT
  | error e m' =>
    rw [Io.run_bind_of_error hx] at hT ⊢
    have := h (by rw [hx]; exact hT)
    simpa only [hx] using this

theorem wp_map {x : Io κ δ ε σ α} {f : α → β} {Q : β → Machine κ δ σ → Prop}
    (h : wp T x (fun a m' => Q (f a) m') E m) : wp T (f <$> x) Q E m := by
  rw [map_eq_pure_bind]
  apply wp_bind
  apply wp_mono h
  . intro a m' _ hQ
    apply wp_pure hQ
  . intro e m' _ _ hE
    exact hE

theorem wp_raise {err : ε} (h : E (.raised err) m) : wp T (Io.raise err) Q E m := by
  intro
  exact h

theorem wp_getSelf {Q : σ → Machine κ δ σ → Prop} (h : Q m.self m) : wp T Io.getSelf Q E m := by
  intro
  exact h

theorem wp_setSelf {Q : Unit → Machine κ δ σ → Prop} {self : σ} (h : Q () (m.withSelf self)) :
    wp T (Io.setSelf self) Q E m := by
  intro
  exact h

theorem wp_peek {Q : δ → Machine κ δ σ → Prop} (h : Q m.disk m) : wp T Io.peek Q E m := by
  intro
  exact h

theorem wp_syscall {call : κ} {act : δ → σ → Except ε α × δ × σ} {torn : Nat → δ → σ → δ × σ}
    (hok : ∀ a d s, act m.disk m.self = (.ok a, d, s) → Q a (m.record call d s))
    (herr : ∀ e d s, act m.disk m.self = (.error e, d, s) → E (.raised e) (m.record call d s))
    (hfault : ∀ n, m.faults m.history.length = some n → E .fault
      (m.record call (torn n m.disk m.self).1 (torn n m.disk m.self).2)) :
    wp T (Io.syscall call act torn) Q E m := by
  intro
  unfold Io.syscall
  dsimp only
  cases hn : m.faults m.history.length with
  | some n => exact hfault n hn
  | none =>
    rcases hact : act m.disk m.self with ⟨r, d, s⟩
    cases r with
    | ok a => apply hok _ _ _ hact
    | error e => apply herr _ _ _ hact

theorem wp_zoom {get : σ → τ} {put : σ → τ → σ} {x : Io κ δ ε τ α}
    (h : wp T x (fun a m' => Q a (m'.withSelf (put m.self m'.self)))
      (fun e m' => E e (m'.withSelf (put m.self m'.self))) (m.withSelf (get m.self))) :
    wp T (Io.zoom get put x) Q E m := by
  unfold wp Io.zoom at *
  dsimp only
  cases hx : x.run (m.withSelf (get m.self)) with
  | ok a m' =>
    rw [hx] at h
    exact h
  | error e m' =>
    rw [hx] at h
    exact h

theorem wp_on {self : τ} {x : Io κ δ ε τ α} {Q : α × τ → Machine κ δ σ → Prop}
    (h : wp T x (fun a m' => Q (a, m'.self) (m'.withSelf m.self))
      (fun e m' => E e (m'.withSelf m.self)) (m.withSelf self)) :
    wp T (Io.on self x) Q E m := by
  unfold wp Io.on at *
  dsimp only
  cases hx : x.run (m.withSelf self) with
  | ok a m' =>
    rw [hx] at h
    exact h
  | error e m' =>
    rw [hx] at h
    exact h

theorem wp_attempt {x : Io κ δ ε σ α} {Q : Except (Failure ε) α → Machine κ δ σ → Prop}
    (h : wp T x (fun a m' => Q (.ok a) m') (fun e m' => Q (.error e) m') m) :
    wp T (Io.attempt x) Q E m := by
  unfold wp Io.attempt at *
  dsimp only
  cases hx : x.run m with
  | ok a m' =>
    rw [hx] at h
    exact h
  | error e m' =>
    rw [hx] at h
    exact h

theorem wp_forM {f : β → Io κ δ ε σ PUnit} {step : ρ → β → ρ} {R : ρ → Machine κ δ σ → Prop}
    (hstep : ∀ r b m, R r m → wp T (f b) (fun _ m' => R (step r b) m') E m) (bs : List β) {r : ρ}
    (h : R r m) : wp T (bs.forM f) (fun _ m' => R (bs.foldl step r) m') E m := by
  induction bs generalizing r m with
  | nil => exact wp_pure h
  | cons b bs ih =>
    apply wp_bind
    apply wp_mono (hstep r b m h)
    . intro _ m' _ h'
      exact ih h'
    . intro e m' _ _ he
      exact he

end Rules

namespace Io

def Selfless (x : Io κ δ ε σ α) : Prop :=
  ∀ m, (x.run m).machine.self = m.self

theorem Selfless.pure (a : α) : (Pure.pure a : Io κ δ ε σ α).Selfless := by
  intro m
  rfl

theorem Selfless.getSelf : (getSelf : Io κ δ ε σ σ).Selfless := by
  intro m
  rfl

theorem Selfless.raise (err : ε) : (raise err : Io κ δ ε σ α).Selfless := by
  intro m
  rfl

theorem Selfless.bind {x : Io κ δ ε σ α} {f : α → Io κ δ ε σ β} (hx : x.Selfless)
    (hf : ∀ a, (f a).Selfless) : (x >>= f).Selfless := by
  intro m
  have hx := hx m
  cases hrun : x.run m with
  | ok a m' =>
    rw [hrun] at hx
    rw [run_bind_of_ok hrun, hf a m']
    exact hx
  | error e m' =>
    rw [hrun] at hx
    rw [run_bind_of_error hrun]
    exact hx

theorem Selfless.map {x : Io κ δ ε σ α} {f : α → β} (hx : x.Selfless) : (f <$> x).Selfless := by
  rw [map_eq_pure_bind]
  exact Selfless.bind hx fun _ => Selfless.pure _

theorem Selfless.zoom {get : σ → τ} {put : σ → τ → σ} (hput : ∀ s, put s (get s) = s)
    {x : Io κ δ ε τ α} (hx : x.Selfless) : (zoom get put x).Selfless := by
  intro m
  rw [machine_zoom, Machine.withSelf_self, hx]
  exact hput m.self

theorem Selfless.on (self : τ) (x : Io κ δ ε τ α) : (on self x : Io κ δ ε σ (α × τ)).Selfless := by
  intro m
  simp only [Io.on]
  cases x.run (m.withSelf self) <;> rfl

theorem Selfless.syscall {call : κ} {act : δ → σ → Except ε α × δ × σ}
    {torn : Nat → δ → σ → δ × σ} (hact : ∀ d s, (act d s).2.2 = s)
    (htorn : ∀ n d s, (torn n d s).2 = s) : (syscall call act torn).Selfless := by
  intro m
  unfold Io.syscall
  dsimp only
  cases m.faults m.history.length with
  | some n => exact htorn n m.disk m.self
  | none =>
    have := hact m.disk m.self
    rcases hm : act m.disk m.self with ⟨r, d, s⟩
    rw [hm] at this
    cases r with
    | ok a => exact this
    | error e => exact this

theorem Selfless.mapM {f : β → Io κ δ ε σ α} (hf : ∀ b, (f b).Selfless) (bs : List β) :
    (bs.mapM f).Selfless := by
  induction bs with
  | nil => exact Selfless.pure _
  | cons b bs ih =>
    rw [List.mapM_cons]
    exact Selfless.bind (hf b) fun _ => Selfless.bind ih fun _ => Selfless.pure _

theorem Selfless.forM {f : β → Io κ δ ε σ PUnit} (hf : ∀ b, (f b).Selfless) (bs : List β) :
    (bs.forM f).Selfless := by
  induction bs with
  | nil => exact Selfless.pure _
  | cons b bs ih => exact Selfless.bind (hf b) fun _ => ih

end Io

theorem wp_selfless {T : δ → Prop} {Q : α → Machine κ δ σ → Prop}
    {E : Failure ε → Machine κ δ σ → Prop} {m : Machine κ δ σ} {x : Io κ δ ε σ α}
    (hx : x.Selfless) (h : wp T x (fun a m' => m'.self = m.self → Q a m')
      (fun e m' => m'.self = m.self → E e m') m) : wp T x Q E m := by
  intro hT
  have h := h hT
  have hx := hx m
  cases hrun : x.run m with
  | ok a m' =>
    rw [hrun] at h hx
    exact h hx
  | error e m' =>
    rw [hrun] at h hx
    exact h hx

def Keeps (P : Machine κ δ σ → Prop) (x : Io κ δ ε σ α) : Prop :=
  ∀ m, P m → P (x.run m).machine

namespace Keeps

variable {P : Machine κ δ σ → Prop}

theorem pure (a : α) : Keeps P (Pure.pure a : Io κ δ ε σ α) := by
  intro m h
  exact h

theorem raise (err : ε) : Keeps P (Io.raise err : Io κ δ ε σ α) := by
  intro m h
  exact h

theorem getSelf : Keeps P (Io.getSelf : Io κ δ ε σ σ) := by
  intro m h
  exact h

theorem peek : Keeps P (Io.peek : Io κ δ ε σ δ) := by
  intro m h
  exact h

theorem setSelf {self : σ} (hself : ∀ m : Machine κ δ σ, P m → P (m.withSelf self)) :
    Keeps P (Io.setSelf self : Io κ δ ε σ Unit) := by
  intro m h
  exact hself m h

theorem bind {x : Io κ δ ε σ α} {f : α → Io κ δ ε σ β} (hx : Keeps P x)
    (hf : ∀ a, Keeps P (f a)) : Keeps P (x >>= f) := by
  intro m h
  have hx := hx m h
  cases hrun : x.run m with
  | ok a m' =>
    rw [hrun] at hx
    rw [Io.run_bind_of_ok hrun]
    exact hf a m' hx
  | error e m' =>
    rw [hrun] at hx
    rw [Io.run_bind_of_error hrun]
    exact hx

theorem map {x : Io κ δ ε σ α} {f : α → β} (hx : Keeps P x) : Keeps P (f <$> x) := by
  rw [map_eq_pure_bind]
  exact bind hx fun _ => pure _

theorem attempt {x : Io κ δ ε σ α} (hx : Keeps P x) : Keeps P (Io.attempt x) := by
  intro m h
  have hx := hx m h
  cases hrun : x.run m with
  | ok a m' =>
    rw [hrun] at hx
    rw [Io.run_attempt_of_ok hrun]
    exact hx
  | error e m' =>
    rw [hrun] at hx
    rw [Io.run_attempt_of_error hrun]
    exact hx

theorem syscall {call : κ} {act : δ → σ → Except ε α × δ × σ} {torn : Nat → δ → σ → δ × σ}
    (hact : ∀ m : Machine κ δ σ, P m →
      P (m.record call (act m.disk m.self).2.1 (act m.disk m.self).2.2))
    (htorn : ∀ (m : Machine κ δ σ) n, P m →
      P (m.record call (torn n m.disk m.self).1 (torn n m.disk m.self).2)) :
    Keeps P (Io.syscall call act torn) := by
  intro m h
  unfold Io.syscall
  dsimp only
  cases m.faults m.history.length with
  | some n => exact htorn m n h
  | none =>
    have := hact m h
    rcases hm : act m.disk m.self with ⟨r, d, s⟩
    rw [hm] at this
    cases r with
    | ok a => exact this
    | error e => exact this

theorem on {P' : Machine κ δ τ → Prop} {self : τ} {x : Io κ δ ε τ α}
    (hin : ∀ m : Machine κ δ σ, P m → P' (m.withSelf self)) (hx : Keeps P' x)
    (hout : ∀ (m : Machine κ δ σ) (m' : Machine κ δ τ), P m → P' m' → P (m'.withSelf m.self)) :
    Keeps P (Io.on self x) := by
  intro m h
  have hx := hx _ (hin m h)
  unfold Io.on
  dsimp only
  cases hrun : x.run (m.withSelf self) with
  | ok a m' =>
    rw [hrun] at hx
    exact hout m m' h hx
  | error e m' =>
    rw [hrun] at hx
    exact hout m m' h hx

theorem zoom {P' : Machine κ δ τ → Prop} {get : σ → τ} {put : σ → τ → σ} {x : Io κ δ ε τ α}
    (hin : ∀ m : Machine κ δ σ, P m → P' (m.withSelf (get m.self))) (hx : Keeps P' x)
    (hout : ∀ (m : Machine κ δ σ) (m' : Machine κ δ τ), P m → P' m' →
      P (m'.withSelf (put m.self m'.self))) :
    Keeps P (Io.zoom get put x) := by
  intro m h
  have hx := hx _ (hin m h)
  unfold Io.zoom
  dsimp only
  cases hrun : x.run (m.withSelf (get m.self)) with
  | ok a m' =>
    rw [hrun] at hx
    exact hout m m' h hx
  | error e m' =>
    rw [hrun] at hx
    exact hout m m' h hx

theorem mapM {f : β → Io κ δ ε σ α} (hf : ∀ b, Keeps P (f b)) (bs : List β) :
    Keeps P (bs.mapM f) := by
  induction bs with
  | nil => exact pure _
  | cons b bs ih =>
    rw [List.mapM_cons]
    exact bind (hf b) fun _ => bind ih fun _ => pure _

theorem forM {f : β → Io κ δ ε σ PUnit} (hf : ∀ b, Keeps P (f b)) (bs : List β) :
    Keeps P (bs.forM f) := by
  induction bs with
  | nil => exact pure _
  | cons b bs ih => exact bind (hf b) fun _ => ih

theorem selfless {x : Io κ δ ε σ α} (S : σ → Prop) (hx : Keeps P x) (hself : x.Selfless) :
    Keeps (fun m => P m ∧ S m.self) x := by
  rintro m ⟨h, hS⟩
  refine ⟨hx m h, ?_⟩
  rw [hself m]
  exact hS

theorem of_wp {x : Io κ δ ε σ α}
    (h : ∀ m, P m → wp (fun _ => True) x (fun _ m' => P m') (fun _ m' => P m') m) : Keeps P x :=
  fun m hm => (h m hm).machine ⟨trivial, fun _ _ => trivial⟩

end Keeps

theorem wp_keeps {T : δ → Prop} {Q : α → Machine κ δ σ → Prop}
    {E : Failure ε → Machine κ δ σ → Prop} {m : Machine κ δ σ} {x : Io κ δ ε σ α}
    {P : Machine κ δ σ → Prop} (hx : Keeps P x) (hm : P m) (hok : ∀ a m', P m' → Q a m')
    (hfail : ∀ e m', P m' → E e m') : wp T x Q E m := by
  intro _
  have hx := hx m hm
  cases hrun : x.run m with
  | ok a m' =>
    rw [hrun] at hx
    exact hok a m' hx
  | error e m' =>
    rw [hrun] at hx
    exact hfail e m' hx

section Runs

variable {T : δ → Prop} {Q : α → Machine κ δ σ → Prop} {E : Failure ε → Machine κ δ σ → Prop}
variable {m m' : Machine κ δ σ} {x : Io κ δ ε σ α}

theorem wp.of_ok {a : α} (h : wp T x Q E m) (hx : x.run m = .ok a m') (hT : m'.Always T) :
    Q a m' := by
  have := h (by rw [hx]; exact hT)
  simpa only [hx] using this

theorem wp.of_error {e : Failure ε} (h : wp T x Q E m) (hx : x.run m = .error e m')
    (hT : m'.Always T) : E e m' := by
  have := h (by rw [hx]; exact hT)
  simpa only [hx] using this

theorem run_eq_of_value {a : α} (h : (x.run m).value? = some a) :
    x.run m = .ok a (x.run m).machine := by
  cases hx : x.run m with
  | ok b m' =>
    rw [hx] at h
    cases h
    rfl
  | error e m' =>
    rw [hx] at h
    contradiction

theorem wp_of_run {a : α} (hx : x.run m = .ok a m') (hQ : Q a m') : wp T x Q E m := by
  intro
  rw [hx]
  exact hQ

theorem wp.exists_ok (h : wp T x Q E m) (hm : m.Faultless) (hT : (x.run m).machine.Always T)
    (hE : ∀ err m', x.run m = .error (.raised err) m' → ¬E (.raised err) m') :
    ∃ a m', x.run m = .ok a m' ∧ Q a m' := by
  have := h hT
  cases hx : x.run m with
  | ok a m' =>
    simp only [hx] at this
    exact ⟨a, m', rfl, this⟩
  | error e m' =>
    simp only [hx] at this
    cases e with
    | fault => exact absurd hm (x.faultless_run _ _ hx)
    | raised err => exact absurd this (hE err m' hx)

end Runs

end Faulty
