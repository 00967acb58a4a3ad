import Chickadee.Lemmas.Secured

/-!
This module contains what a loss of power leaves of the log, wherever it stops an operation.
-/

namespace Chickadee

open Faulty Faulty.Io Layers Platter

variable {σ : Type} {c : Crates} {T : Disk → Prop} {f : Nat → Option Nat} {S : Set Bytes}
variable {old : List String}

namespace Outage

variable {d d' mid : Disk} {history : List (Step Call Disk)} {K : Set String}

theorem wal_mem (h : Outage f history d d') (hsecured : Secured f K S old d history) :
    d'.wal.bytes ∈ S :=
  hsecured.wal _ (h.remains .wal d'.wal rfl)

theorem named (h : Outage f history d d') (hnamed : Named d) : Named d' := by
  unfold Named
  rw [h.keys_eq, h.clock_eq, h.ticks_eq]
  exact hnamed

theorem get?_eq_none (h : Outage f history d d') {name : String}
    (hnone : d'.sstables.get? name = none) : d.sstables.get? name = none := by
  rw [SortedMap.get?_eq_none_iff] at hnone ⊢
  rw [← h.keys_eq]
  exact hnone

theorem get?_eq (h : Outage f history d d') {name : String}
    (hfirm : (Path.sstable name).area.Firm f d history) :
    d'.sstables.get? name = d.sstables.get? name := by
  cases hget : d'.sstables.get? name with
  | none => exact (h.get?_eq_none hget).symm
  | some contents =>
    have hbytes := hfirm _ (h.remains (.sstable name) contents hget)
    rw [area_sstable] at hbytes
    rcases Option.map_eq_some_iff.mp hbytes with ⟨contents', hget', heq⟩
    rw [hget', Contents.eq_of_bytes heq]

theorem get?_eq_of_none (h : Outage f history d d') {name : String}
    (hnone : d.sstables.get? name = none) : d'.sstables.get? name = none := by
  rw [SortedMap.get?_eq_none_iff] at hnone ⊢
  rw [h.keys_eq]
  exact hnone

theorem sstables_eq (h : Outage f history d d')
    (hfirm : ∀ name ∈ d.sstables.keys, (Path.sstable name).area.Firm f d history) :
    d'.sstables = d.sstables := by
  apply SortedMap.ext_get?
  intro name
  by_cases hmem : name ∈ d.sstables.keys
  . exact h.get?_eq (hfirm name hmem)
  . have hnone := (SortedMap.get?_eq_none_iff _ _).mpr hmem
    rw [hnone, h.get?_eq_of_none hnone]

theorem eq_of_sstables (h : Outage f history d d') {sstables : SortedMap String Contents}
    (hsstables : d'.sstables = sstables) :
    d' = { d with wal := d'.wal, sstables := sstables } := by
  have hclock := h.clock_eq
  have hticks := h.ticks_eq
  rcases d' with ⟨wal', sstables', clock', ticks'⟩
  dsimp only at hsstables hclock hticks
  rw [hsstables, hclock, hticks]

theorem eq_of_secured (h : Outage f history d d') (hsecured : Secured f Set.univ S old d history) :
    d' = d.write .wal d'.wal :=
  h.eq_of_sstables (h.sstables_eq fun name _ => hsecured.tables name trivial)

theorem flushLeft {memtable : MemTable} (h : Outage f history d d')
    (hhalfway : Halfway f S mid.sstables.keys d history) (hleft : FlushLeft c memtable mid d) :
    FlushLeft c memtable (mid.write .wal d'.wal) d' := by
  have hold : ∀ name ∈ mid.sstables.keys, d'.sstables.get? name = d.sstables.get? name :=
    fun name hname => h.get?_eq (hhalfway.secured.tables name hname)
  cases hleft with
  | unchanged =>
    rw [h.eq_of_sstables (h.sstables_eq hhalfway.secured.tables)]
    exact FlushLeft.unchanged
  | ticked =>
    rw [h.eq_of_sstables (h.sstables_eq hhalfway.secured.tables)]
    exact FlushLeft.ticked
  | part new hnew =>
    have hget : ∀ name, (mid.tick.write (.sstable (nextName mid)) new).sstables.get? name
        = if name = nextName mid then some new else mid.sstables.get? name :=
      SortedMap.get?_insert _ _ _
    cases hleft : d'.sstables.get? (nextName mid) with
    | none =>
      have hnone := h.get?_eq_none hleft
      rw [hget, if_pos rfl] at hnone
      contradiction
    | some new' =>
      rcases hhalfway.growing _ _ (h.remains (.sstable (nextName mid)) new' hleft) with
        ⟨now, hnow, hbegins⟩
      rw [area_write, if_pos rfl] at hnow
      cases hnow
      have hsstables : d'.sstables = mid.sstables.insert (nextName mid) new' := by
        apply SortedMap.ext_get?
        intro name
        rw [SortedMap.get?_insert]
        split
        . next heq =>
          rw [heq]
          exact hleft
        . next hne =>
          by_cases hmem : name ∈ mid.sstables.keys
          . rw [hold name hmem, hget, if_neg hne]
          . have hnone := (SortedMap.get?_eq_none_iff _ _).mpr hmem
            rw [hnone]
            apply h.get?_eq_of_none
            rw [hget, if_neg hne, hnone]
      rw [h.eq_of_sstables hsstables]
      exact FlushLeft.part (d := mid.write .wal d'.wal) new' (hbegins.trans hnew)

def LeftOf (old : List String) (p' p : String × Contents) : Prop :=
  p'.1 = p.1 ∧ p'.2.bytes <+: p.2.bytes ∧ (p.1 ∈ old → p' = p)

theorem leftOf (h : Outage f history d d') (hhalfway : Halfway f S old d history) :
    List.Forall₂ (LeftOf old) d'.sstables.entries d.sstables.entries := by
  have hnames : List.Forall₂ (fun p' p => p'.1 = p.1) d'.sstables.entries d.sstables.entries := by
    apply List.forall₂_map_right_iff.mp
    apply List.forall₂_map_left_iff.mp
    rw [List.forall₂_eq_eq_eq]
    exact h.keys_eq
  rw [List.forall₂_iff_get] at hnames ⊢
  refine ⟨hnames.1, ?_⟩
  intro i hi' hi
  have hname := hnames.2 i hi' hi
  have hget' := (SortedMap.get?_eq_some_iff d'.sstables _ _).mpr
    (List.get_mem d'.sstables.entries ⟨i, hi'⟩)
  have hget := (SortedMap.get?_eq_some_iff d.sstables _ _).mpr
    (List.get_mem d.sstables.entries ⟨i, hi⟩)
  refine ⟨hname, ?_, ?_⟩
  . rcases hhalfway.growing _ _ (h.remains (.sstable _) _ hget') with ⟨now, hnow, hbegins⟩
    rw [area_sstable, hname, hget] at hnow
    cases hnow
    exact hbegins
  . intro hmem
    have hsame := h.get?_eq (hhalfway.secured.tables _ hmem)
    rw [← hname, hget', hname, hget] at hsame
    exact Prod.ext hname (Option.some.inj hsame)

theorem leftOf_eq {ps' ps : List (String × Contents)} (h : List.Forall₂ (LeftOf old) ps' ps)
    (hold : ∀ p ∈ ps, p.1 ∈ old) : ps' = ps := by
  induction h with
  | nil => rfl
  | cons hp _ ih =>
    rw [hp.2.2 (hold _ List.mem_cons_self), ih fun p hmem => hold p (List.mem_cons_of_mem _ hmem)]

theorem leftOf_mem {ps' ps : List (String × Contents)} (h : List.Forall₂ (LeftOf old) ps' ps) :
    ∀ p' ∈ ps', ∃ p ∈ ps, p'.2.bytes <+: p.2.bytes := by
  induction h with
  | nil => simp
  | @cons p' p ps' ps hp _ ih =>
    intro q hq
    cases List.mem_cons.mp hq with
    | inl heq =>
      rw [heq]
      exact ⟨p, List.mem_cons_self, hp.2.1⟩
    | inr hmem =>
      rcases ih q hmem with ⟨r, hr, hbegins⟩
      exact ⟨r, List.mem_cons_of_mem _ hr, hbegins⟩

theorem leftover (h : Outage f history d d')
    (hhalfway : Halfway f S mid.sstables.keys d history)
    (hentries : mid.sstables.entries <+: d.sstables.entries) (hleft : Leftover c mid d) :
    Leftover c (mid.write .wal d'.wal) d' := by
  rcases hentries with ⟨new, hnew⟩
  have hleftOf := h.leftOf hhalfway
  rw [← hnew] at hleftOf
  have htake := List.forall₂_take_append _ _ _ hleftOf
  have hdrop := List.forall₂_drop_append _ _ _ hleftOf
  have hold : d'.sstables.entries.take mid.sstables.entries.length = mid.sstables.entries :=
    leftOf_eq htake fun p hp => List.mem_map_of_mem hp
  rcases hleft.files_eq with ⟨outs, hfiles, houts⟩
  have houts_eq : outs = new.reverse.map Prod.snd := by
    unfold files at hfiles
    rw [← hnew, List.reverse_append, List.map_append] at hfiles
    exact (List.append_cancel_right hfiles).symm
  refine ⟨rfl, h.named hleft.named,
    (d'.sstables.entries.drop mid.sstables.entries.length).reverse.map Prod.snd, ?_, ?_⟩
  . have hsplit := List.take_append_drop mid.sstables.entries.length d'.sstables.entries
    rw [hold] at hsplit
    unfold files
    conv => lhs; rw [← hsplit, List.reverse_append, List.map_append]
    rfl
  . intro contents hcontents
    rw [List.mem_map] at hcontents
    rcases hcontents with ⟨p', hp', rfl⟩
    rcases leftOf_mem hdrop p' (List.mem_reverse.mp hp') with ⟨p, hp, hbegins⟩
    have hmem : p.2 ∈ outs := by
      rw [houts_eq]
      exact List.mem_map_of_mem (List.mem_reverse.mpr hp)
    rcases houts p.2 hmem with ⟨entries, htable, himage, hnewest⟩
    exact ⟨entries, htable, hbegins.trans himage, hnewest⟩

end Outage

theorem Added.begins {tables : List (List Entry)} {d d' : Disk} (h : Added c d tables d')
    (hnamed : Named d) (hclock : ClockUp d') : d.sstables.entries <+: d'.sstables.entries := by
  induction h with
  | refl => exact List.prefix_refl _
  | @flush tables d1 hadded memtable new _ _ _ _ _ ih =>
    have hlt := (hadded.named hnamed).lt_nextName hclock.of_write
    apply (ih hclock.of_write.of_tick).trans
    change _ <+: (d1.sstables.insert (nextName d1) new).entries
    rw [SortedMap.entries_insert_of_forall_lt new hlt]
    exact List.prefix_append _ _

theorem FlushLeft.begins {memtable : MemTable} {d d' : Disk} (h : FlushLeft c memtable d d')
    (hnamed : Named d) (hclock : ClockUp d') : d.sstables.entries <+: d'.sstables.entries := by
  cases h with
  | unchanged => exact List.prefix_refl _
  | ticked => exact List.prefix_refl _
  | part new _ =>
    change _ <+: (d.sstables.insert (nextName d) new).entries
    rw [SortedMap.entries_insert_of_forall_lt new (hnamed.lt_nextName hclock.of_write)]
    exact List.prefix_append _ _

theorem FlushLeft.clockUp {memtable : MemTable} {d d' : Disk} (h : FlushLeft c memtable d d')
    (hclock : ClockUp d') : ClockUp d := by
  cases h with
  | unchanged => exact hclock
  | ticked => exact hclock.of_tick
  | part new _ => exact hclock.of_write.of_tick

theorem mem_keys_of_removeAll {names : List String} {name : String} {d : Disk}
    (h : name ∈ (removeAll names d).sstables.keys) : name ∈ d.sstables.keys := by
  induction names generalizing d with
  | nil => exact h
  | cons first names ih =>
    have hmem := ih (d := d.remove first) h
    by_contra hnot
    have hnone := (SortedMap.get?_eq_none_iff _ _).mpr hnot
    have hget : (d.remove first).sstables.get? name
        = if name = first then none else d.sstables.get? name := SortedMap.get?_erase _ _ _
    rw [hnone, ite_self] at hget
    exact (SortedMap.get?_eq_none_iff _ _).mp hget hmem

/--
What a compaction of `d` leaves that fails: new tables behind the old ones, or all of the new tables,
while the old ones are being removed.
-/
inductive Interrupted (c : Crates) (d : Disk) (m' : Machine Call Disk σ) : Prop where
  | merging (hleft : Leftover c d m'.disk)
    (hentries : d.sstables.entries <+: m'.disk.sstables.entries) : Interrupted c d m'
  | removing (name : String) (hfailed : m'.FailedAt (.removeFile name))
    (hdeleting : Deleting c (older d name) d m'.disk)
    (hgone : ∃ name ∈ d.sstables.keys, name ∉ m'.disk.sstables.keys) : Interrupted c d m'

theorem wp_compact_interrupted {m : Machine Call Disk σ} (hT : ∀ d, T d → ClockUp d)
    (hnamed : Named m.disk)
    (hscans : ∀ contents ∈ files m.disk, TableEntries c (fileScan c contents)) :
    wp T (compact c) (fun _ m' => Deleting c [] m.disk m'.disk)
      (fun _ m' => Interrupted c m.disk m') m := by
  apply wp_conclude
  apply wp_compact_of_serializable
  . intro s hs entry hentry
    exact ((tableEntries_of_mem_streamsOf hscans hs).writable entry hentry).serializable
  . exact namesFresh_of_clockUp hT hnamed
  . intro m' d' tables _ hmerged hdisk hm''
    have hclock := hT _ hm''.1
    rw [hdisk, clockUp_removeAll] at hclock
    rw [hdisk]
    exact hmerged.deleting hnamed hclock hscans
  . intro e m' d' tables memtable _ hbegun hpart _ hm''
    have hclock := hT _ hm''.1
    apply Interrupted.merging (hbegun.leftover hnamed hscans hpart hclock)
    rcases hbegun with ⟨_, _, hrolling⟩
    exact (hrolling.added.begins hnamed (hpart.clockUp hclock)).trans
      (hpart.begins (hrolling.added.named hnamed) hclock)
  . intro m' d' tables done name _ hmerged hdone hdisk hfailed hm''
    have hclock := hT _ hm''.1
    rw [hdisk, clockUp_removeAll] at hclock
    cases done with
    | nil =>
      -- no table has been removed yet
      change m'.disk = d' at hdisk
      rw [← hdisk] at hmerged hclock
      rcases hmerged with ⟨streams, seenKeys, hrolling, -⟩
      have hbegun : Begun c tables .new m.disk m'.disk := ⟨streams, seenKeys, hrolling⟩
      exact .merging (hbegun.leftover hnamed hscans .unchanged hclock)
        (hrolling.added.begins hnamed hclock)
    | cons first done =>
      have hdeleting := hmerged.deleting_older hnamed hclock hscans hdone
      rw [← hdisk] at hdeleting
      refine .removing name hfailed hdeleting ⟨first, ?_, ?_⟩
      . exact List.mem_reverse.mp (hdone.subset (by simp))
      . intro hmem
        rw [hdisk] at hmem
        have hmem : first ∈ (d'.remove first).sstables.keys := mem_keys_of_removeAll hmem
        rw [← not_not (a := first ∈ _), ← SortedMap.get?_eq_none_iff] at hmem
        apply hmem
        exact (SortedMap.get?_erase _ _ _).trans (if_pos rfl)

-- a log that is opened on `d` shows `durable`
def Opens (c : Crates) (durable : Spec) (d : Disk) : Prop :=
  ∃ live log, Recoverable c live durable d log

/--
Everything in the directory is synced. The log shows `live`, and so does one that is opened, whatever
remains of the WAL.
-/
structure Lasting (c : Crates) (f : Nat → Option Nat) (S : Set Bytes) (live : Spec) (log : Log)
    (d : Disk) (history : List (Step Call Disk)) : Prop where
  secured : Secured f Set.univ S [] d history
  current : d.wal.bytes ∈ S
  recoverable : ∀ wal : Contents, wal.bytes ∈ S → Recoverable c live live (d.write .wal wal) log

namespace Lasting

variable {live : Spec} {log : Log} {d d' : Disk} {history : List (Step Call Disk)}

theorem shows (h : Lasting c f S live log d history) : Live c live d log := by
  have hlive := (h.recoverable d.wal h.current).current
  rw [Disk.write_self rfl] at hlive
  exact hlive

theorem outage (h : Lasting c f S live log d history) (hout : Outage f history d d') :
    Recoverable c live live d' log := by
  rw [hout.eq_of_secured h.secured]
  exact h.recoverable d'.wal (hout.wal_mem h.secured)

theorem there (h : Lasting c f S live log d history) :
    Secured f Set.univ S d.sstables.keys d history :=
  ⟨h.secured.named, fun _ hname => hname, h.secured.tables, h.secured.wal⟩

/--
A compaction that is stopped by a loss of power changes nothing, unless it stops while it removes the
tables and one of them holds a value that has been deleted.
-/
theorem wp_compact {m : Machine Call Disk σ} (h : Lasting c f S live log m.disk m.history)
    (hm : m.faults = f) (hT : ∀ d, T d → Strict c d) :
    wp T (compact c)
      (fun _ m' => Lasting c f S live log m'.disk m'.history ∧ m'.disk.wal = m.disk.wal)
      (fun _ m' => ∀ d', Outage f m'.history m'.disk d' → Strict c d' →
        (∀ name, m'.FailedAt (.removeFile name) → NoneHidden c Set.univ m.disk log) →
        Recoverable c live live d' log) m := by
  have hclock : ∀ d, T d → ClockUp d := fun d hd => (hT d hd).clock
  apply wp_conclude
  apply wp_mono (wp_and (wp_compact_secured hclock hm h.there)
    (wp_compact_interrupted hclock h.shows.named h.shows.scans))
  . rintro _ m' _ ⟨hsecured, hdeleting⟩ hm'
    refine ⟨⟨hsecured, ?_, ?_⟩, hdeleting.wal_eq⟩
    . rw [hdeleting.wal_eq]
      exact h.current
    . intro wal hwal
      have hrec := h.recoverable wal hwal
      have hclean : FootersClean c (m'.disk.write .wal wal) := (hT _ hm'.1).sound.footers
      have hlive := hrec.current.deleting (hdeleting.write_wal wal) hclean (Or.inl rfl)
      exact hrec.of_live hlive rfl fun _ hnone => hnone
  . rintro e m' _ _ ⟨hsynced, hinterrupted⟩ hm' d' hout hstrict hhidden
    have hleftover : ∀ wal, wal.bytes ∈ S → Leftover c (m.disk.write .wal wal) d' →
        Recoverable c live live d' log := by
      intro wal hwal hleft
      have hrec := h.recoverable wal hwal
      exact hrec.of_live (hrec.current.leftover hleft hstrict) hleft.wal_eq fun _ hnone => hnone
    cases hsynced with
    | inl hhalfway =>
      cases hinterrupted with
      | merging hleft hentries =>
        exact hleftover d'.wal (hout.wal_mem hhalfway.secured)
          (hout.leftover hhalfway hentries hleft)
      | removing name hfailed hdeleting hgone =>
        rcases hgone with ⟨name', hname', hnot⟩
        exact absurd (hhalfway.secured.there name' hname') hnot
    | inr hsecured =>
      have hwal := hout.wal_mem hsecured
      have hd' := hout.eq_of_secured hsecured
      cases hinterrupted with
      | merging hleft _ =>
        apply hleftover d'.wal hwal
        rw [hd']
        exact hleft.write_wal _
      | removing name hfailed hdeleting _ =>
        have hrec := h.recoverable d'.wal hwal
        have hhidden : NoneHidden c Set.univ (m.disk.write .wal d'.wal) log := hhidden name hfailed
        rw [hd'] at hstrict ⊢
        exact hrec.of_live (hrec.current.deleting (hdeleting.write_wal _) hstrict.sound.footers
          (Or.inr hhidden)) rfl fun _ hnone => hnone

section Log

variable {m : Machine Call Disk Log}

theorem emptied {log' : Log} (h : Lasting c f S live log d history) (hlive : Live c live d' log')
    (hnew : log'.memtable = .new) {wal : Contents} (hwal : wal.bytes ∈ insert [] S) :
    Recoverable c live live (d'.write .wal wal) log' := by
  cases hwal with
  | inl hnil =>
    have hwal : wal = .empty := Contents.eq_of_bytes hnil
    rw [hwal]
    exact .of_empty (hlive.write_wal .empty) rfl hnew
  | inr hmem =>
    apply (h.recoverable wal hmem).of_live (hlive.write_wal wal) rfl
    intro key _
    rw [hnew]
    rfl

theorem wp_flushTables (h : Lasting c f S live m.self m.disk m.history) (hm : m.faults = f)
    (hT : ∀ d, T d → Strict c d) :
    wp T (Log.flushTables c)
      (fun _ m' => Lasting c f (insert [] S) live m'.self m'.disk m'.history
        ∧ m'.disk.wal = .empty ∧ m'.self.memtable = .new
        ∧ FilesFrom c m.self.memtable m.disk m'.disk)
      (fun _ m' => ∀ d', Outage f m'.history m'.disk d' → Strict c d' → Opens c live d') m := by
  have hclock : ∀ d, T d → ClockUp d := fun d hd => (hT d hd).clock
  have hflush : wp T (Log.flushTables c)
      (fun _ m' => ∃ d', FlushDone c m.self.memtable m.disk d' ∧ m'.disk = d'.write .wal .empty
        ∧ m'.self.walFile.path = .wal ∧ m'.self.memtable = .new)
      (fun _ m' => m'.self.walFile.path = .wal
        ∧ (FlushLeft c m.self.memtable m.disk m'.disk ∧ m'.self.memtable = m.self.memtable
          ∨ ∃ d', FlushDone c m.self.memtable m.disk d' ∧ m'.self.memtable = .new
            ∧ (m'.disk = d' ∨ m'.disk = d'.write .wal .empty))) m := by
    apply Chickadee.wp_flushTables h.shows.path_eq h.shows.stored.serializable
    . intro m' d' _ hdone hdisk hpath hnew _
      exact ⟨d', hdone, hdisk, hpath, hnew⟩
    . intro e m' _ hleft hpath hmemtable _
      exact ⟨hpath, Or.inl ⟨hleft, hmemtable⟩⟩
    . intro m' d' _ hdone hdisk hpath hnew
      exact ⟨hpath, Or.inr ⟨d', hdone, hnew, hdisk⟩⟩
  apply wp_conclude
  apply wp_mono (wp_and (wp_flushTables_secured hclock hm h.shows.path_eq h.there) hflush)
  . rintro _ m' _ ⟨hsecured, d', hdone, hdisk, hpath, hnew⟩ hm'
    have hstrict := hT _ hm'.1
    rw [hdisk] at hstrict hsecured ⊢
    have hsound : Sound c d' := hstrict.of_write_wal.sound
    refine ⟨⟨?_, ?_, ?_⟩, rfl, hnew, ?_⟩
    . exact hsecured.mono (fun _ h => h) (fun _ h => h) (List.nil_subset _)
    . exact Set.mem_insert _ _
    . intro wal hwal
      exact h.emptied (h.shows.flushDone hdone hsound hpath hnew) hnew hwal
    . have hfiles := h.shows.filesFrom hdone hsound hpath hnew
      exact hfiles
  . rintro e m' _ _ ⟨hsecured, hpath, hcases⟩ hm' d' hout hstrict
    cases hsecured with
    | inl hhalfway =>
      rcases hhalfway with ⟨hhalfway, hnonempty⟩
      rcases hcases with ⟨hleft, -⟩ | ⟨mid, -, hnew, -⟩
      . have hrec := h.recoverable d'.wal (hout.wal_mem hhalfway.secured)
        have hleft := hout.flushLeft hhalfway hleft
        refine ⟨live, m.self, hrec.of_live (hrec.current.flushLeft hleft hstrict) ?_ fun _ h => h⟩
        exact hleft.wal_eq
      . rw [hnew] at hnonempty
        contradiction
    | inr hsecured =>
      rcases hsecured with ⟨hsecured, hempty⟩
      have hnew := MemTable.eq_new_of_isEmpty hempty
      have hwal := hout.wal_mem hsecured
      have hd' := hout.eq_of_secured hsecured
      refine ⟨live, m'.self, ?_⟩
      rcases hcases with ⟨hleft, hmemtable⟩ | ⟨mid, hdone, -, hdisk⟩
      . have hlive := (h.shows.flushLeft hleft (hT _ hm'.1)).congr hpath hmemtable
        rw [hd']
        exact h.emptied hlive hnew hwal
      . have hmid : d' = mid.write .wal d'.wal := by
          rcases hdisk with hdisk | hdisk
          . rw [hdisk] at hd'
            exact hd'
          . rw [hdisk] at hd'
            exact hd'
        rw [hmid] at hstrict ⊢
        have hlive := h.shows.flushDone hdone hstrict.of_write_wal.sound hpath hnew
        exact h.emptied hlive hnew hwal

/--
A flush that is stopped by a loss of power keeps what is shown, unless it stops while the compaction
removes the tables and one of them holds a value that has been deleted.
-/
theorem wp_flush (h : Lasting c f S live m.self m.disk m.history) (hm : m.faults = f)
    (hT : ∀ d, T d → Strict c d) :
    wp T (Log.flush c)
      (fun _ m' => Lasting c f (insert [] S) live m'.self m'.disk m'.history
        ∧ m'.disk.wal = .empty ∧ m'.self.memtable = .new)
      (fun _ m' => ∀ d', Outage f m'.history m'.disk d' → Strict c d' →
        (∀ name, m'.FailedAt (.removeFile name) → NoOldSet c Set.univ live m.disk) →
        Opens c live d') m := by
  unfold Log.flush
  apply wp_bind
  apply wp_mono (h.wp_flushTables hm hT)
  . rintro _ m1 hm1 ⟨h1, hwal1, hnew1, hfiles1⟩
    apply wp_bind
    apply wp_getSelf
    split
    . apply wp_selfless selfless_compact
      apply wp_mono (h1.wp_compact (hm1.faults_eq.trans hm) hT)
      . rintro _ m' _ ⟨h', hwal'⟩ hself'
        rw [hself']
        exact ⟨h', hwal'.trans hwal1, hnew1⟩
      . intro e m' _ _ h' _ d' hout hstrict hold
        refine ⟨live, m1.self, h' d' hout hstrict fun name hfailed => ?_⟩
        exact h1.shows.noneHidden (h.shows.noOldSet (hold name hfailed) hfiles1)
    . exact wp_pure ⟨h1, hwal1, hnew1⟩
  . intro e m' _ _ h' d' hout hstrict _
    exact h' d' hout hstrict

end Log

end Lasting

end Chickadee
