import Chickadee.Impl.Disk

/-!
This module contains what the calls do, as rules of the program logic. The ones that only read are
described by a big-step relation, so that a function that only reads is a function on the contents of
its file and the cursor.
-/

namespace Chickadee

open Faulty Faulty.Io

variable {σ τ ρ α β : Type} {T : Disk → Prop}

theorem Contents.eq_of_bytes {contents contents' : Contents} (h : contents.bytes = contents'.bytes) :
    contents = contents' := by
  cases contents
  cases contents'
  cases h
  rfl

/--
`m'` is a later moment than `m`, and no call in between has changed the disk.
-/
structure Reads (m : Machine Call Disk σ) (m' : Machine Call Disk τ) : Prop where
  later : Extends m m'
  disk_eq : m'.disk = m.disk

namespace Reads

theorem refl (m : Machine Call Disk σ) : Reads m m :=
  ⟨Extends.refl m, rfl⟩

theorem trans {m : Machine Call Disk σ} {m' : Machine Call Disk τ} {m'' : Machine Call Disk ρ}
    (h : Reads m m') (h' : Reads m' m'') : Reads m m'' :=
  ⟨h.later.trans h'.later, h'.disk_eq.trans h.disk_eq⟩

theorem of_withSelf {m : Machine Call Disk σ} {m' : Machine Call Disk τ} {self : ρ}
    (h : Reads (m.withSelf self) m') : Reads m m' :=
  ⟨h.later.of_withSelf, h.disk_eq⟩

theorem withSelf {m : Machine Call Disk σ} {m' : Machine Call Disk τ} (h : Reads m m') (self : ρ) :
    Reads m (m'.withSelf self) :=
  ⟨h.later.withSelf self, h.disk_eq⟩

end Reads

theorem run_readCall_of_ok {call : Call} {act : Disk → σ → Except Error α × σ}
    {m : Machine Call Disk σ} {a : α} {s : σ} (hfault : m.faults m.history.length = none)
    (hact : act m.disk m.self = (.ok a, s)) :
    (readCall call act).run m = .ok a (m.record call m.disk s) := by
  apply run_syscall_of_ok hfault
  rw [hact]

theorem run_readCall_of_fault {call : Call} {act : Disk → σ → Except Error α × σ}
    {m : Machine Call Disk σ} {n : Nat} (hfault : m.faults m.history.length = some n) :
    (readCall call act).run m = .error .fault (m.record call m.disk m.self) :=
  run_syscall_of_fault hfault

theorem exists_ok_of_space {x : Os σ α} {Q : α → Machine Call Disk σ → Prop}
    {m : Machine Call Disk σ} (h : wp T x Q (fun e _ => e = .fault ∨ e = .raised .fileTooLarge) m)
    (hm : m.Faultless) (hT : (x.run m).machine.Always T)
    (hspace : ∀ m', x.run m ≠ .error (.raised .fileTooLarge) m') :
    ∃ a m', x.run m = .ok a m' ∧ Q a m' := by
  apply h.exists_ok hm hT
  rintro err m' hrun (hfault | hlarge)
  . contradiction
  . cases hlarge
    exact hspace m' hrun

section Calls

variable {Q : α → Machine Call Disk σ → Prop} {E : Failure Error → Machine Call Disk σ → Prop}
variable {m : Machine Call Disk σ}

theorem wp_readCall {call : Call} {act : Disk → σ → Except Error α × σ}
    (hok : ∀ a m', Reads m m' → act m.disk m.self = (.ok a, m'.self) → Q a m')
    (herr : ∀ e m', Reads m m' → act m.disk m.self = (.error e, m'.self) → E (.raised e) m')
    (hfault : ∀ m', Reads m m' → m'.self = m.self → E .fault m') :
    wp T (readCall call act) Q E m := by
  have hreads : ∀ s, Reads m (m.record call m.disk s) :=
    fun s => ⟨Extends.record m call m.disk s, rfl⟩
  apply wp_syscall
  . intro a d s hact
    simp only [Prod.mk.injEq] at hact
    rcases hact with ⟨hact, rfl, rfl⟩
    apply hok _ _ (hreads _)
    rw [← hact, Machine.record_self]
  . intro e d s hact
    simp only [Prod.mk.injEq] at hact
    rcases hact with ⟨hact, rfl, rfl⟩
    apply herr _ _ (hreads _)
    rw [← hact, Machine.record_self]
  . intro n _
    apply hfault _ (hreads _)
    rfl

theorem wp_createDirAll {Q : Unit → Machine Call Disk σ → Prop}
    (hok : ∀ m', Reads m m' → m'.self = m.self → Q () m')
    (hfault : ∀ m', Reads m m' → m'.self = m.self → E .fault m') :
    wp T createDirAll Q E m := by
  apply wp_readCall
  . intro a m' hm hact
    simp only [Prod.mk.injEq] at hact
    exact hok m' hm hact.2.symm
  . simp
  . exact hfault

theorem wp_readDir {Q : List String → Machine Call Disk σ → Prop}
    (hok : ∀ m', Reads m m' → m'.self = m.self → Q m.disk.sstables.keys m')
    (hfault : ∀ m', Reads m m' → m'.self = m.self → E .fault m') :
    wp T readDir Q E m := by
  apply wp_readCall
  . intro a m' hm hact
    simp only [Prod.mk.injEq, Except.ok.injEq] at hact
    rw [← hact.1]
    exact hok m' hm hact.2.symm
  . simp
  . exact hfault

theorem wp_openFile {Q : File → Machine Call Disk σ → Prop} {path : Path}
    (hpath : (m.disk.get? path).isSome)
    (hok : ∀ m', Reads m m' → m'.self = m.self → Q ⟨path, 0⟩ m')
    (hfault : ∀ m', Reads m m' → m'.self = m.self → E .fault m') :
    wp T (openFile path) Q E m := by
  rcases Option.isSome_iff_exists.mp hpath with ⟨contents, hcontents⟩
  apply wp_readCall
  . intro a m' hm hact
    simp only [hcontents, Prod.mk.injEq, Except.ok.injEq] at hact
    rw [← hact.1]
    exact hok m' hm hact.2.symm
  . simp [hcontents]
  . exact hfault

theorem wp_now {Q : Nat → Machine Call Disk σ → Prop}
    (hok : ∀ m', Extends m m' → m'.disk = { m.disk with ticks := m.disk.ticks + 1 } →
      m'.self = m.self → Q (m.disk.clock m.disk.ticks) m')
    (hfault : ∀ m', Extends m m' → m'.disk = { m.disk with ticks := m.disk.ticks + 1 } →
      m'.self = m.self → E .fault m') :
    wp T now Q E m := by
  apply wp_syscall
  . intro a d s hact
    simp only [Prod.mk.injEq, Except.ok.injEq] at hact
    rcases hact with ⟨rfl, rfl, rfl⟩
    apply hok _ (Extends.record ..) <;> rfl
  . simp
  . intro n _
    apply hfault _ (Extends.record ..) <;> rfl

theorem wp_createFile {Q : File → Machine Call Disk σ → Prop} {path : Path} {truncate : Bool}
    (hok : ∀ m', Extends m m' →
      m'.disk = m.disk.write path (if truncate then .empty else m.disk.read path) →
      m'.self = m.self → Q ⟨path, 0⟩ m')
    (hfault : ∀ m', Reads m m' → m'.self = m.self → E .fault m') :
    wp T (createFile path truncate) Q E m := by
  apply wp_syscall
  . intro a d s hact
    simp only [Prod.mk.injEq, Except.ok.injEq] at hact
    rcases hact with ⟨rfl, rfl, rfl⟩
    apply hok _ (Extends.record ..) <;> rfl
  . simp
  . intro n _
    apply hfault
    . exact ⟨Extends.record .., rfl⟩
    . rfl

theorem wp_removeFile {Q : Unit → Machine Call Disk σ → Prop} {name : String}
    (hname : name ∈ m.disk.sstables.keys)
    (hok : ∀ m', Extends m m' → m'.disk = m.disk.remove name → m'.self = m.self → Q () m')
    (hfault : ∀ m', Reads m m' → m'.FailedAt (.removeFile name) → E .fault m') :
    wp T (removeFile name) Q E m := by
  have hsome : ∃ contents, m.disk.sstables.get? name = some contents := by
    rw [← Option.ne_none_iff_exists']
    intro hnone
    exact (SortedMap.get?_eq_none_iff _ _).mp hnone hname
  rcases hsome with ⟨contents, hcontents⟩
  apply wp_syscall
  . intro a d s hact
    simp only [hcontents, Prod.mk.injEq] at hact
    rcases hact with ⟨-, rfl, rfl⟩
    apply hok _ (Extends.record ..) <;> rfl
  . simp [hcontents]
  . intro n hn
    apply hfault
    . exact ⟨Extends.record .., rfl⟩
    . exact ⟨m.disk, m.history, rfl, Option.isSome_of_eq_some hn⟩

theorem wp_context {o : Option α} {a : α} {msg : String} (ho : o = some a) (hok : Q a m) :
    wp T (context o msg) Q E m := by
  rw [ho]
  exact wp_pure hok

theorem run_ofExcept_ok (a : α) (m : Machine Call Disk σ) :
    (ofExcept (.ok a) : Os σ α).run m = .ok a m := rfl

theorem wp_ofExcept {r : Except Error α} {a : α} (hr : r = .ok a) (hok : Q a m) :
    wp T (ofExcept r) Q E m := by
  rw [hr]
  exact wp_pure hok

end Calls

/--
On a file that holds `contents` and with the cursor at `pos`, `x` does what `r` says: it returns the
first component and leaves the cursor at the second one.
-/
def Reading (x : FileIo α) (contents : Contents) (pos : Nat) (r : Except Error α × Nat) : Prop :=
  ∀ (T : Disk → Prop) (Q : α → Machine Call Disk File → Prop)
    (E : Failure Error → Machine Call Disk File → Prop) (m : Machine Call Disk File),
    m.disk.read m.self.path = contents →
    m.self.pos = pos →
    (∀ m', Reads m m' → m'.self = ⟨m.self.path, r.2⟩ →
      match r.1 with
      | .ok a => Q a m'
      | .error e => E (.raised e) m') →
    (∀ m', Reads m m' → m'.self.path = m.self.path → E .fault m') →
    wp T x Q E m

namespace Reading

variable {contents : Contents} {pos pos' : Nat}

theorem pure (a : α) : Reading (Pure.pure a) contents pos (.ok a, pos) := by
  intro T Q E m hc hp hok hfault
  apply wp_pure
  apply hok m (Reads.refl m)
  rw [← hp]

theorem bind_ok {x : FileIo α} {f : α → FileIo β} {a : α} {r : Except Error β × Nat}
    (hx : Reading x contents pos (.ok a, pos')) (hf : Reading (f a) contents pos' r) :
    Reading (x >>= f) contents pos r := by
  intro T Q E m hc hp hok hfault
  apply wp_bind
  apply hx T _ _ m hc hp
  . intro m' hm hself
    apply hf T _ _ m'
    . rw [hm.disk_eq, hself, hc]
    . rw [hself]
    . intro m'' hm' hself'
      rw [hself] at hself'
      exact hok m'' (hm.trans hm') hself'
    . intro m'' hm' hpath
      rw [hself] at hpath
      exact hfault m'' (hm.trans hm') hpath
  . exact hfault

theorem readCall {call : Call} {act : Disk → File → Except Error α × File}
    {r : Except Error α × Nat}
    (h : ∀ d f, d.read f.path = contents → f.pos = pos → act d f = (r.1, ⟨f.path, r.2⟩)) :
    Reading (Chickadee.readCall call act) contents pos r := by
  intro T Q E m hc hp hok hfault
  have hact := h m.disk m.self hc hp
  apply wp_readCall
  . intro a m' hm hact'
    rw [hact, Prod.mk.injEq] at hact'
    have := hok m' hm hact'.2.symm
    rw [hact'.1] at this
    exact this
  . intro e m' hm hact'
    rw [hact, Prod.mk.injEq] at hact'
    have := hok m' hm hact'.2.symm
    rw [hact'.1] at this
    exact this
  . intro m' hm hself
    apply hfault m' hm
    rw [hself]

theorem getSelf_bind {f : File → FileIo α} {r : Except Error α × Nat}
    (h : ∀ path, Reading (f ⟨path, pos⟩) contents pos r) :
    Reading (getSelf >>= f) contents pos r := by
  intro T Q E m hc hp hok hfault
  apply wp_bind
  apply wp_getSelf
  have : m.self = ⟨m.self.path, pos⟩ := by rw [← hp]
  rw [this]
  exact h _ T Q E m hc hp hok hfault

theorem streamPosition : Reading Chickadee.streamPosition contents pos (.ok pos, pos) := by
  apply getSelf_bind
  intro path
  apply readCall
  intro d f _ hp
  simp [← hp]

theorem seek_start (n : Nat) : Reading (Chickadee.seek (.start n)) contents pos (.ok (), n) := by
  apply getSelf_bind
  intro path
  apply readCall
  intros
  rfl

theorem seek_fromEnd {back : Nat} (h : back ≤ contents.length) :
    Reading (Chickadee.seek (.fromEnd back)) contents pos (.ok (), contents.length - back) := by
  apply getSelf_bind
  intro path
  apply readCall
  intro d f hc _
  simp [hc, h]

theorem readToEnd :
    Reading Chickadee.readToEnd contents pos
      (.ok (contents.bytes.drop pos), max pos contents.length) := by
  apply getSelf_bind
  intro path
  apply readCall
  intro d f hc hp
  simp [hc, hp]

theorem readExact {n : Nat} (h : pos + n ≤ contents.length) :
    Reading (Chickadee.readExact n) contents pos
      (.ok ((contents.bytes.drop pos).take n), pos + n) := by
  apply getSelf_bind
  intro path
  apply readCall
  intro d f hc hp
  simp [hc, hp, h]

theorem metadataLen :
    Reading Chickadee.metadataLen contents pos (.ok contents.length, pos) := by
  apply getSelf_bind
  intro path
  apply readCall
  intro d f hc hp
  simp [hc, ← hp]

theorem context {o : Option α} {a : α} {msg : String} (ho : o = some a) :
    Reading (Chickadee.context o msg) contents pos (.ok a, pos) := by
  rw [ho]
  exact Reading.pure a

end Reading

namespace Disk

@[simp]
theorem get?_write (d : Disk) (path : Path) (c : Contents) (path' : Path) :
    (d.write path c).get? path' = if path' = path then some c else d.get? path' := by
  cases path with
  | wal => cases path' <;> simp [write, get?]
  | sstable name => cases path' <;> simp [write, get?]

@[simp]
theorem read_write (d : Disk) (path : Path) (c : Contents) (path' : Path) :
    (d.write path c).read path' = if path' = path then c else d.read path' := by
  unfold read
  rw [get?_write]
  split <;> rfl

@[simp]
theorem write_write (d : Disk) (path : Path) (c c' : Contents) :
    (d.write path c).write path c' = d.write path c' := by
  cases path with
  | wal => rfl
  | sstable name => simp [write, SortedMap.insert_insert]

theorem write_self {d : Disk} {path : Path} {c : Contents} (h : d.get? path = some c) :
    d.write path c = d := by
  cases path with
  | wal =>
    cases h
    rfl
  | sstable name =>
    have : d.sstables.insert name c = d.sstables := by
      apply SortedMap.ext_get?
      intro x
      rw [SortedMap.get?_insert]
      split
      . next heq => rw [heq, ← h]; rfl
      . rfl
    simp [write, this]

end Disk

theorem overwrite_end (old data : Bytes) : overwrite old old.length data = old ++ data := by
  simp [overwrite]

theorem prefix_of_dropLast_take (data : Bytes) (n : Nat) :
    data.dropLast.take n <+: data ∧ (data.dropLast.take n = data → data = []) := by
  constructor
  . exact (List.take_prefix _ _).trans (List.dropLast_prefix _)
  . intro h
    have := congrArg List.length h
    simp only [List.length_take, List.length_dropLast] at this
    apply List.eq_nil_of_length_eq_zero
    omega

theorem clip_append (old : Contents) {data part : Bytes} (h : part <+: data) :
    ∃ b, (Contents.clip (old.bytes ++ part)).bytes = old.bytes ++ b ∧ b <+: part ∧ b <+: data := by
  refine ⟨part.take (maxFileLen - old.bytes.length), ?_, List.take_prefix _ _,
    (List.take_prefix _ _).trans h⟩
  simp only [Contents.clip]
  rw [List.take_append, List.take_of_length_le old.bound]

theorem wp_writeAll {Q : Unit → Machine Call Disk File → Prop}
    {E : Failure Error → Machine Call Disk File → Prop} {m : Machine Call Disk File} {data : Bytes}
    {old : Contents} (hold : m.disk.read m.self.path = old) (hpos : m.self.pos = old.length)
    (hok : ∀ m' new, Extends m m' → new.bytes = old.bytes ++ data →
      m'.disk = m.disk.write m.self.path new →
      m'.self = ⟨m.self.path, new.length⟩ → Q () m')
    (hfail : ∀ e m' new b, Extends m m' → new.bytes = old.bytes ++ b → b <+: data →
      (b = data → data = []) → m'.disk = m.disk.write m.self.path new → m'.self = m.self →
      (e = .fault ∨ e = .raised .fileTooLarge) → E e m') :
    wp T (writeAll data) Q E m := by
  have hover : ∀ part, overwrite (m.disk.read m.self.path).bytes m.self.pos part
      = old.bytes ++ part := by
    intro part
    rw [hold, hpos]
    exact overwrite_end _ _
  unfold writeAll
  apply wp_bind
  apply wp_getSelf
  apply wp_syscall
  . intro a d s hact
    simp only [hover] at hact
    split at hact
    . simp only [Prod.mk.injEq] at hact
      rcases hact with ⟨-, rfl, rfl⟩
      apply hok _ ⟨old.bytes ++ data, by assumption⟩ (Extends.record ..) rfl rfl
      simp [Contents.length, hpos]
    . simp at hact
  . intro e d s hact
    simp only [hover] at hact
    split at hact
    . simp at hact
    . next hlong =>
      simp only [Prod.mk.injEq, Except.error.injEq] at hact
      rcases hact with ⟨rfl, rfl, rfl⟩
      rcases clip_append old (List.prefix_refl data) with ⟨b, hb, hbd, -⟩
      apply hfail _ _ _ b (Extends.record ..) hb hbd _ rfl rfl (Or.inr rfl)
      intro heq
      have := (Contents.clip (old.bytes ++ data)).bound
      rw [hb, heq] at this
      contradiction
  . intro n _
    simp only [hover]
    have hpart := prefix_of_dropLast_take data n
    rcases clip_append old hpart.1 with ⟨b, hb, hbp, hbd⟩
    apply hfail _ _ _ b (Extends.record ..) hb hbd _ rfl rfl (Or.inl rfl)
    intro heq
    apply hpart.2
    rw [heq] at hbp
    exact hpart.1.eq_of_length_le hbp.length_le

theorem wp_setLen_zero {Q : Unit → Machine Call Disk File → Prop}
    {E : Failure Error → Machine Call Disk File → Prop} {m : Machine Call Disk File}
    (hok : ∀ m', Extends m m' → m'.disk = m.disk.write m.self.path .empty →
      m'.self = m.self → Q () m')
    (hfault : ∀ m', Reads m m' → m'.self = m.self → E .fault m') :
    wp T (setLen 0) Q E m := by
  unfold setLen
  apply wp_bind
  apply wp_getSelf
  apply wp_syscall
  . intro a d s hact
    simp only [Prod.mk.injEq] at hact
    rcases hact with ⟨-, rfl, rfl⟩
    apply hok _ (Extends.record ..) _ rfl
    simp [Contents.clip, Contents.empty]
  . simp
  . intro n _
    apply hfault
    . exact ⟨Extends.record .., rfl⟩
    . rfl

theorem wp_syncAll {Q : Unit → Machine Call Disk File → Prop}
    {E : Failure Error → Machine Call Disk File → Prop} {m : Machine Call Disk File}
    (hok : ∀ m', Reads m m' → m'.self = m.self → Q () m')
    (hfault : ∀ m', Reads m m' → m'.self = m.self → E .fault m') :
    wp T syncAll Q E m := by
  unfold syncAll
  apply wp_bind
  apply wp_getSelf
  apply wp_readCall
  . intro a m' hm hact
    simp only [Prod.mk.injEq] at hact
    exact hok m' hm hact.2.symm
  . simp
  . exact hfault

theorem wp_seek {Q : Unit → Machine Call Disk File → Prop}
    {E : Failure Error → Machine Call Disk File → Prop} {m : Machine Call Disk File}
    {target : SeekFrom} {pos : Nat}
    (h : Reading (seek target) (m.disk.read m.self.path) m.self.pos (.ok (), pos))
    (hok : ∀ m', Reads m m' → m'.self = ⟨m.self.path, pos⟩ → Q () m')
    (hfault : ∀ m', Reads m m' → m'.self.path = m.self.path → E .fault m') :
    wp T (seek target) Q E m :=
  h T Q E m rfl rfl hok hfault

end Chickadee
