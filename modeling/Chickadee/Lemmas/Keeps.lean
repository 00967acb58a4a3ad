import Chickadee.Impl.Run
import Chickadee.Lemmas.Directory

/-!
This module contains what the operations keep of the disk and of the calls made so far, whatever fails
in them and whatever the files hold.
-/

namespace Chickadee

open Faulty Faulty.Io

variable {σ α : Type} {c : Crates} {R : Disk → List (Step Call Disk) → Prop} {path : Path}

def Creationless (call : Call) : Prop :=
  ∀ name, call ≠ .createFile (.sstable name)

def ReadStable (R : Disk → List (Step Call Disk) → Prop) : Prop :=
  ∀ d history call, Creationless call → R d history → R d (⟨call, d⟩ :: history)

structure WriteStable (R : Disk → List (Step Call Disk) → Prop) (path : Path) : Prop where
  read : ReadStable R
  write : ∀ d history call contents, Creationless call → R d history →
    R (d.write path contents) (⟨call, d⟩ :: history)

def Throughout (R : Disk → List (Step Call Disk) → Prop) (m : Machine Call Disk σ) : Prop :=
  R m.disk m.history

def OnFile (R : Disk → List (Step Call Disk) → Prop) (path : Path) (m : Machine Call Disk File) :
    Prop :=
  R m.disk m.history ∧ m.self.path = path

theorem keeps_on {τ : Type} {x : Os τ α} {self : τ} (hx : Keeps (Throughout R) x) :
    Keeps (Throughout R) (on self x : Os σ (α × τ)) :=
  Keeps.on (fun _ h => h) hx fun _ _ _ h => h

theorem keeps_onFile {x : FileIo α} {file : File} (hx : Keeps (OnFile R file.path) x) :
    Keeps (Throughout R) (on file x : Os σ (α × File)) :=
  Keeps.on (fun _ h => ⟨h, rfl⟩) hx fun _ _ _ h => h.1

theorem keeps_context {P : Machine Call Disk σ → Prop} (o : Option α) (msg : String) :
    Keeps P (context o msg : Os σ α) := by
  cases o with
  | none => exact Keeps.raise _
  | some a => exact Keeps.pure a

theorem keeps_ofExcept {P : Machine Call Disk σ → Prop} (r : Except Error α) :
    Keeps P (ofExcept r : Os σ α) := by
  cases r with
  | error e => exact Keeps.raise e
  | ok a => exact Keeps.pure a

theorem keeps_process (entry : Entry) : Keeps (Throughout R) (MemTable.process c entry) := by
  have hset : ∀ self, Keeps (Throughout R) (setSelf self : Os MemTable Unit) :=
    fun self => Keeps.setSelf fun _ h => h
  have hrest : Keeps (Throughout R) (do
      let size ← ofExcept (MemTable.entrySize c entry)
      let self ← getSelf
      setSelf (self.store entry (saturatingAdd self.size size))
      return self.inner.get? entry.key : Os MemTable _) :=
    Keeps.bind (keeps_ofExcept _) fun _ => Keeps.bind Keeps.getSelf fun _ =>
      Keeps.bind (hset _) fun _ => Keeps.pure _
  unfold MemTable.process
  refine Keeps.bind Keeps.getSelf ?_
  intro self
  dsimp only
  split
  . exact Keeps.bind (keeps_ofExcept _) fun _ => Keeps.bind (hset _) fun _ => hrest
  . exact hrest

section Reading

variable (hR : ReadStable R)

include hR

theorem keeps_readCall {call : Call} (hcall : Creationless call)
    (act : Disk → σ → Except Error α × σ) :
    Keeps (Throughout R) (readCall call act : Os σ α) := by
  apply Keeps.syscall
  . intro m h
    exact hR m.disk m.history call hcall h
  . intro m n h
    exact hR m.disk m.history call hcall h

theorem keeps_fileCall {call : Call} (hcall : Creationless call)
    {act : Disk → File → Except Error α × File} (hact : ∀ d f, (act d f).2.path = f.path) :
    Keeps (OnFile R path) (readCall call act) := by
  apply Keeps.syscall
  . intro m h
    exact ⟨hR m.disk m.history call hcall h.1, (hact m.disk m.self).trans h.2⟩
  . intro m n h
    exact ⟨hR m.disk m.history call hcall h.1, h.2⟩

theorem keeps_streamPosition : Keeps (OnFile R path) streamPosition :=
  Keeps.bind Keeps.getSelf fun _ => keeps_fileCall hR (by simp [Creationless]) fun _ _ => rfl

theorem keeps_seek (target : SeekFrom) : Keeps (OnFile R path) (seek target) := by
  refine Keeps.bind Keeps.getSelf fun _ => keeps_fileCall hR (by simp [Creationless]) ?_
  intro d f
  cases target with
  | start n => rfl
  | fromEnd back =>
    dsimp only
    split <;> rfl

theorem keeps_readToEnd : Keeps (OnFile R path) readToEnd :=
  Keeps.bind Keeps.getSelf fun _ => keeps_fileCall hR (by simp [Creationless]) fun _ _ => rfl

theorem keeps_readExact (n : Nat) : Keeps (OnFile R path) (readExact n) := by
  refine Keeps.bind Keeps.getSelf fun _ => keeps_fileCall hR (by simp [Creationless]) ?_
  intro d f
  split <;> rfl

theorem keeps_metadataLen : Keeps (OnFile R path) metadataLen :=
  Keeps.bind Keeps.getSelf fun _ => keeps_fileCall hR (by simp [Creationless]) fun _ _ => rfl

theorem keeps_syncAll : Keeps (OnFile R path) syncAll :=
  Keeps.bind Keeps.getSelf fun _ => keeps_fileCall hR (by simp [Creationless]) fun _ _ => rfl

theorem keeps_headerReadNext {V : Type} (c : Codec V) : Keeps (OnFile R path) (headerReadNext c) := by
  unfold headerReadNext
  apply Keeps.bind (keeps_streamPosition hR)
  intro pos
  apply Keeps.bind (keeps_seek hR _)
  intro _
  apply Keeps.bind (keeps_streamPosition hR)
  intro bufLen
  apply Keeps.bind (keeps_seek hR _)
  intro _
  split
  . exact Keeps.pure _
  . apply Keeps.bind (keeps_readToEnd hR)
    intro bytes
    split
    . refine Keeps.bind (keeps_context _ _) ?_
      intro next
      exact Keeps.bind (keeps_seek hR _) fun _ => Keeps.pure _
    . exact Keeps.pure _

theorem keeps_headerHasAtLeastOne {V : Type} (c : Codec V) :
    Keeps (OnFile R path) (headerHasAtLeastOne c) :=
  Keeps.bind (keeps_streamPosition hR) fun _ => Keeps.bind (keeps_seek hR _) fun _ =>
    Keeps.bind (keeps_headerReadNext hR c) fun _ => Keeps.bind (keeps_seek hR _) fun _ =>
      Keeps.pure _

theorem keeps_readBloomFilter : Keeps (OnFile R path) readBloomFilter := by
  unfold readBloomFilter
  apply Keeps.bind (keeps_seek hR _)
  intro _
  apply Keeps.bind (keeps_streamPosition hR)
  intro size
  split
  . exact Keeps.pure _
  . apply Keeps.bind (keeps_seek hR _)
    intro _
    apply Keeps.bind (keeps_readExact hR _)
    intro bitCountBytes
    refine Keeps.bind (keeps_context _ _) ?_
    intro footerLen
    split
    . exact Keeps.pure _
    . exact Keeps.bind (keeps_seek hR _) fun _ => Keeps.bind (keeps_readExact hR _) fun _ =>
        Keeps.bind (keeps_seek hR _) fun _ => Keeps.pure _

theorem keeps_fromPath (name : String) :
    Keeps (Throughout R) (SSTable.fromPath c name : Os σ (Option SSTable)) := by
  have hfile : ∀ path, Keeps (OnFile R path) (SSTable.fromFile c) := by
    intro path
    unfold SSTable.fromFile
    apply Keeps.bind (keeps_readBloomFilter hR)
    intro filter
    split
    . exact Keeps.pure _
    . refine Keeps.bind (keeps_context _ _) ?_
      intro footerLen
      apply Keeps.bind (keeps_metadataLen hR)
      intro len
      refine Keeps.bind (keeps_context _ _) ?_
      intro pos
      apply Keeps.bind (keeps_headerHasAtLeastOne hR _)
      intro atLeastOne
      split <;> exact Keeps.pure _
  unfold SSTable.fromPath
  apply Keeps.bind (keeps_readCall hR (by simp [Creationless]) _)
  intro file
  apply Keeps.bind (keeps_onFile (hfile _))
  intro r
  split <;> exact Keeps.pure _

theorem keeps_readNextEntry (sstable : SSTable) :
    Keeps (Throughout R) (on sstable (SSTable.readNextEntry c) : Os σ _) := by
  have hzoom : ∀ {β : Type} {x : FileIo β}, Keeps (OnFile R sstable.file.path) x →
      Keeps (fun m : Machine Call Disk SSTable => R m.disk m.history
        ∧ m.self.file.path = sstable.file.path) (SSTable.zoomFile x) :=
    fun hx => Keeps.zoom (fun _ h => h) hx fun _ _ _ h => h
  have hnext : Keeps (fun m : Machine Call Disk SSTable => R m.disk m.history
      ∧ m.self.file.path = sstable.file.path) (SSTable.readNextEntry c) := by
    unfold SSTable.readNextEntry
    refine Keeps.bind Keeps.getSelf ?_
    intro self
    apply Keeps.bind (hzoom (keeps_streamPosition hR))
    intro pos
    split
    . exact Keeps.pure _
    . exact hzoom (keeps_headerReadNext hR _)
  exact Keeps.on (fun _ h => ⟨h, rfl⟩) hnext fun _ _ _ h => h.1

theorem keeps_fromFile : Keeps (OnFile R path) (MemTable.fromFile c) := by
  have hloop : ∀ fuel memtable,
      Keeps (OnFile R path) (MemTable.fromFileLoop c fuel memtable) := by
    intro fuel
    induction fuel with
    | zero => exact fun _ => Keeps.raise _
    | succ fuel ih =>
      intro memtable
      unfold MemTable.fromFileLoop
      apply Keeps.bind (Keeps.attempt (keeps_headerReadNext hR _))
      intro r
      split
      . refine Keeps.bind (Keeps.on (fun _ h => h.1) (keeps_process (R := R) _) ?_) fun _ => ih _
        intro m m' h h'
        exact ⟨h', h.2⟩
      . exact Keeps.pure _
  unfold MemTable.fromFile
  exact Keeps.bind (keeps_seek hR _) fun _ => Keeps.bind Keeps.getSelf fun _ =>
    Keeps.bind Keeps.peek fun _ => hloop _ _

theorem keeps_mergeRound (min : String) (cursors : List Cursor) (memtable : MemTable)
    (seenKeys : List String) :
    Keeps (Throughout R) (mergeRound c min cursors memtable seenKeys : Os σ _) := by
  induction cursors generalizing memtable seenKeys with
  | nil => exact Keeps.pure _
  | cons cursor cursors ih =>
    rcases cursor with ⟨head, sstable⟩
    cases head with
    | none => exact Keeps.bind (ih _ _) fun _ => Keeps.pure _
    | some entry =>
      unfold mergeRound
      have hrest : ∀ memtable', Keeps (Throughout R) (do
          let cursor ← on sstable (SSTable.readNextEntry c)
          let r ← mergeRound c min cursors memtable' (seenKeys.insert min)
          return (cursor :: r.1, r.2) : Os σ _) :=
        fun memtable' => Keeps.bind (keeps_readNextEntry hR _) fun _ =>
          Keeps.bind (ih _ _) fun _ => Keeps.pure _
      split
      . dsimp only
        split
        . exact Keeps.bind (Keeps.map (keeps_on (keeps_process _))) fun _ => hrest _
        . exact Keeps.bind (Keeps.pure _) fun _ => hrest _
      . exact Keeps.bind (ih _ _) fun _ => Keeps.pure _

theorem keeps_openTables (names : List String) :
    Keeps (Throughout R) (openTables c names : Os σ _) :=
  Keeps.bind (Keeps.mapM (keeps_fromPath hR) names) fun _ => Keeps.pure _

theorem keeps_firstEntries (sstables : List SSTable) :
    Keeps (Throughout R)
      (sstables.mapM fun sstable => on sstable (SSTable.readNextEntry c) : Os σ _) :=
  Keeps.mapM (fun sstable => keeps_readNextEntry hR sstable) sstables

end Reading

section Writing

variable (hR : WriteStable R path)

include hR

theorem keeps_writeAll (data : Bytes) : Keeps (OnFile R path) (writeAll data) := by
  refine Keeps.bind Keeps.getSelf fun f => Keeps.syscall ?_ ?_
  . rintro m ⟨h, hpath⟩
    have hwrite := fun contents => hR.write m.disk m.history (.writeAll f.path data) contents
      (by simp [Creationless]) h
    rw [← hpath] at hwrite
    dsimp only
    split
    . exact ⟨hwrite _, hpath⟩
    . exact ⟨hwrite _, hpath⟩
  . rintro m n ⟨h, hpath⟩
    have hwrite := fun contents => hR.write m.disk m.history (.writeAll f.path data) contents
      (by simp [Creationless]) h
    rw [← hpath] at hwrite
    exact ⟨hwrite _, hpath⟩

theorem keeps_setLen (n : Nat) : Keeps (OnFile R path) (setLen n) := by
  refine Keeps.bind Keeps.getSelf fun f => Keeps.syscall ?_ ?_
  . rintro m ⟨h, hpath⟩
    have hwrite := fun contents => hR.write m.disk m.history (.setLen f.path n) contents
      (by simp [Creationless]) h
    rw [← hpath] at hwrite
    exact ⟨hwrite _, hpath⟩
  . rintro m _ ⟨h, hpath⟩
    exact ⟨hR.read _ _ _ (by simp [Creationless]) h, hpath⟩

theorem keeps_headerWrite {V : Type} (c : Codec V) (value : V) :
    Keeps (OnFile R path) (headerWrite c value) :=
  Keeps.bind (keeps_seek hR.read _) fun _ => Keeps.bind (keeps_ofExcept _) fun _ =>
    keeps_writeAll hR _

theorem keeps_writeEntries (entries : List Entry) (filter : BloomFilter) :
    Keeps (OnFile R path) (MemTable.writeEntries c entries filter) := by
  induction entries generalizing filter with
  | nil => exact Keeps.pure _
  | cons entry entries ih =>
    unfold MemTable.writeEntries
    rw [List.foldlM_cons]
    exact Keeps.bind (Keeps.bind (keeps_headerWrite hR _ _) fun _ => Keeps.pure _) ih

theorem keeps_writeTable (memtable : MemTable) :
    Keeps (OnFile R path) (memtable.writeTable c) := by
  unfold MemTable.writeTable
  refine Keeps.bind (keeps_context _ _) fun bitCount => ?_
  refine Keeps.bind (keeps_writeEntries hR _ _) fun filter => ?_
  refine Keeps.bind (keeps_writeAll hR _) fun _ => ?_
  split
  . exact Keeps.raise _
  . exact Keeps.bind (keeps_writeAll hR _) fun _ => keeps_syncAll hR.read

end Writing

end Chickadee
