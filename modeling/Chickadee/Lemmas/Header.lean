import Chickadee.Impl.Header
import Chickadee.Lemmas.Disk

/-!
This module contains the round trip of the record format and what the resynchronising reader does,
which is that of `Resync` on the parser of records.
-/

namespace Chickadee

open Faulty Faulty.Io LittleEndian Resync

variable {T : Type} (c : Codec T)

def frame (payload : Bytes) : Bytes :=
  toLe 2 magic ++ toLe 4 (c.crc32 payload).toNat ++ toLe 4 payload.length ++ payload

-- what `header_write` appends for `value`
def encoded (value : T) : Bytes :=
  match Serializer.serialize c value with
  | .ok bytes => bytes
  | .error _ => []

def encodedAll (values : List T) : Bytes :=
  values.flatMap (encoded c)

def Writable (value : T) : Prop :=
  ∃ payload, c.RoundTrips value payload

-- what a record needs to be written, but not to be read
def Serializable (value : T) : Prop :=
  ∃ payload, c.serialize value = some payload ∧ payload.length < 2 ^ 32

def writableCheck [DecidableEq T] (value : T) : Bool :=
  match c.serialize value with
  | some payload => c.deserialize payload = some value ∧ 0 < payload.length ∧ payload.length < 2 ^ 32
  | none => false

theorem Writable.of_check [DecidableEq T] {value : T} (h : writableCheck c value = true) :
    Writable c value := by
  unfold writableCheck at h
  split at h
  . next payload hserialize =>
    have h := of_decide_eq_true h
    exact ⟨payload, hserialize, h.1, h.2.1, h.2.2⟩
  . contradiction

@[simp]
theorem encodedAll_nil : encodedAll c [] = [] := rfl

@[simp]
theorem encodedAll_cons (value : T) (values : List T) :
    encodedAll c (value :: values) = encoded c value ++ encodedAll c values := rfl

@[simp]
theorem encodedAll_append (values values' : List T) :
    encodedAll c (values ++ values') = encodedAll c values ++ encodedAll c values' := by
  simp [encodedAll]

@[simp]
theorem length_frame (payload : Bytes) : (frame c payload).length = headerLen + payload.length := by
  simp only [frame, List.length_append, length_toLe, headerLen]

variable {c}

theorem serialize_eq {value : T} {payload : Bytes} (hserialize : c.serialize value = some payload)
    (hlt : payload.length < 2 ^ 32) : Serializer.serialize c value = .ok (frame c payload) := by
  have : ¬2 ^ 32 ≤ payload.length := not_le.mpr hlt
  simp only [Serializer.serialize, hserialize, this, ↓reduceIte]
  rfl

theorem encoded_eq {value : T} {payload : Bytes} (h : c.RoundTrips value payload) :
    encoded c value = frame c payload := by
  rw [encoded, serialize_eq h.serialize_eq h.lt]

theorem Writable.serializable {value : T} (h : Writable c value) : Serializable c value := by
  rcases h with ⟨payload, h⟩
  exact ⟨payload, h.serialize_eq, h.lt⟩

theorem Serializable.serialize_eq {value : T} (h : Serializable c value) :
    Serializer.serialize c value = .ok (encoded c value) := by
  rcases h with ⟨payload, hserialize, hlt⟩
  rw [encoded, Chickadee.serialize_eq hserialize hlt]

theorem Serializable.encoded_ne_nil {value : T} (h : Serializable c value) :
    encoded c value ≠ [] := by
  rcases h with ⟨payload, hserialize, hlt⟩
  intro hnil
  have := congrArg List.length hnil
  rw [encoded, Chickadee.serialize_eq hserialize hlt, length_frame] at this
  simp [headerLen] at this

theorem encoded_ne_nil {value : T} (h : Writable c value) : encoded c value ≠ [] :=
  h.serializable.encoded_ne_nil

theorem splitFirstChunk_append {n : Nat} {chunk rest : Bytes} (h : chunk.length = n) :
    splitFirstChunk n (chunk ++ rest) = .ok (chunk, rest) := by
  simp [splitFirstChunk, ← h]

/--
Decode after encode, whatever follows the record.
-/
theorem deserialize_frame {value : T} {payload : Bytes} (h : c.RoundTrips value payload)
    (rest : Bytes) :
    Deserializer.deserialize c (frame c payload ++ rest)
      =
    .ok (value, (frame c payload).length) := by
  have hlen : ¬(frame c payload ++ rest).length ≤ headerLen := by
    have := h.pos
    rw [List.length_append, length_frame]
    omega
  have hmagic : ofLe (toLe 2 magic) = magic := ofLe_toLe (by decide)
  have hcrc : ofLe (toLe 4 (c.crc32 payload).toNat) = (c.crc32 payload).toNat :=
    ofLe_toLe (c.crc32 payload).toNat_lt
  have hpayload : ofLe (toLe 4 payload.length) = payload.length :=
    ofLe_toLe (by have := h.lt; omega)
  have hlong : ¬(payload ++ rest).length < payload.length := by
    rw [List.length_append]
    omega
  have hconsumed : checkedAdd headerLen payload.length = some (headerLen + payload.length) := by
    apply checkedAdd_eq_some
    have := h.lt
    unfold headerLen
    omega
  unfold Deserializer.deserialize
  rw [if_neg hlen, length_frame]
  simp only [frame, List.append_assoc, splitFirstChunk_append (length_toLe _ _), hmagic, hcrc,
    hpayload, hlong, hconsumed, bind, Except.bind, ne_eq, not_true_eq_false, ↓reduceIte,
    List.take_left, h.deserialize_eq]

theorem parseRecord_encoded {value : T} (h : Writable c value) (rest : Bytes) :
    parseRecord c (encoded c value ++ rest) = some (value, (encoded c value).length) := by
  rcases h with ⟨payload, h⟩
  rw [encoded_eq h, parseRecord, deserialize_frame h]
  rfl

theorem parseRecord_short {bytes : Bytes} (h : bytes.length ≤ headerLen) :
    parseRecord c bytes = none := by
  unfold parseRecord Deserializer.deserialize
  rw [if_pos h]
  rfl

def declaredPayload (bytes : Bytes) : Bytes :=
  (bytes.drop headerLen).take (ofLe ((bytes.drop 6).take 4))

theorem parseRecord_long {bytes : Bytes} (h : headerLen < bytes.length) :
    parseRecord c bytes
      =
    if ofLe (bytes.take 2) = magic
        ∧ headerLen + ofLe ((bytes.drop 6).take 4) ≤ bytes.length
        ∧ ofLe ((bytes.drop 2).take 4) = (c.crc32 (declaredPayload bytes)).toNat then
      (c.deserialize (declaredPayload bytes)).map
        fun value => (value, headerLen + ofLe ((bytes.drop 6).take 4))
    else
      none := by
  have h2 : 2 ≤ bytes.length := by unfold headerLen at h; omega
  have h4 : 4 ≤ (bytes.drop 2).length := by rw [List.length_drop]; unfold headerLen at h; omega
  have h4' : 4 ≤ (bytes.drop 6).length := by rw [List.length_drop]; unfold headerLen at h; omega
  have hdrop : (bytes.drop 10).length = bytes.length - headerLen := by
    simp only [List.length_drop, headerLen]
  have hlt : ofLe ((bytes.drop 6).take 4) < 2 ^ 32 := by
    have := ofLe_lt ((bytes.drop 6).take 4)
    rw [List.length_take, Nat.min_eq_left h4'] at this
    exact this
  have hconsumed : checkedAdd headerLen (ofLe ((bytes.drop 6).take 4))
      = some (headerLen + ofLe ((bytes.drop 6).take 4)) := by
    apply checkedAdd_eq_some
    unfold headerLen
    omega
  have hpayload : (bytes.drop 10).take (ofLe ((bytes.drop 6).take 4)) = declaredPayload bytes := rfl
  unfold parseRecord Deserializer.deserialize splitFirstChunk
  rw [if_neg (not_le.mpr h)]
  simp only [h2, h4, ↓reduceIte, bind, Except.bind, List.drop_drop, Nat.reduceAdd, h4', hconsumed,
    hpayload]
  split
  . next hmagic => simp [Except.toOption, hmagic]
  . next hmagic =>
    split
    . next hlong =>
      rw [hdrop] at hlong
      rw [if_neg (by omega)]
      rfl
    . next hlong =>
      rw [hdrop] at hlong
      split
      . next hcrc => simp [Except.toOption, hcrc]
      . next hcrc =>
        rw [if_pos ⟨not_not.mp hmagic, by omega, not_not.mp hcrc⟩]
        cases c.deserialize (declaredPayload bytes) <;> rfl

theorem of_parseRecord {bytes : Bytes} {value : T} {n : Nat}
    (h : parseRecord c bytes = some (value, n)) :
    headerLen < bytes.length ∧ n = headerLen + ofLe ((bytes.drop 6).take 4) ∧ n ≤ bytes.length
      ∧ ofLe (bytes.take 2) = magic
      ∧ ofLe ((bytes.drop 2).take 4) = (c.crc32 (declaredPayload bytes)).toNat
      ∧ c.deserialize (declaredPayload bytes) = some value := by
  have hlong : headerLen < bytes.length := by
    by_contra hshort
    rw [parseRecord_short (not_lt.mp hshort)] at h
    contradiction
  rw [parseRecord_long hlong] at h
  split at h
  . next hcond =>
    rw [Option.map_eq_some_iff] at h
    rcases h with ⟨value', hvalue, heq⟩
    cases heq
    exact ⟨hlong, rfl, hcond.2.1, hcond.1, hcond.2.2, hvalue⟩
  . contradiction

variable (c)

def recordParser : Parser UInt8 T where
  parse := parseRecord c
  pos_of_parse h := by
    have := of_parseRecord h
    unfold headerLen at this
    omega
  le_of_parse h := (of_parseRecord h).2.2.1

/--
What `header_read_next` returns and where it leaves the cursor.
-/
def readNext (contents : Contents) (pos : Nat) : Option T × Nat :=
  if contents.length ≤ pos then
    (none, pos)
  else
    match scan (parseRecord c) (contents.bytes.drop pos) with
    | none => (none, contents.length)
    | some (p, value, len) => (some value, pos + p + len)

variable {c}

theorem le_of_scan {bytes : Bytes} {pos p len : Nat} {value : T}
    (h : scan (parseRecord c) (bytes.drop pos) = some (p, value, len)) :
    pos + p + len ≤ bytes.length := by
  rcases (scan_eq_some_iff _ _ _ _).mp h with ⟨hp, hparse, -⟩
  have := (recordParser c).le_of_parse hparse
  simp only [List.length_drop] at hp this
  omega

theorem reading_headerReadNext (contents : Contents) (pos : Nat) :
    Reading (headerReadNext c) contents pos
      (.ok (readNext c contents pos).1, (readNext c contents pos).2) := by
  unfold headerReadNext
  apply Reading.bind_ok Reading.streamPosition
  apply Reading.bind_ok (Reading.seek_fromEnd (Nat.zero_le _))
  apply Reading.bind_ok Reading.streamPosition
  apply Reading.bind_ok (Reading.seek_start _)
  unfold readNext
  rw [Nat.sub_zero]
  split
  . apply Reading.pure
  . next hlt =>
    apply Reading.bind_ok Reading.readToEnd
    cases hscan : scan (parseRecord c) (contents.bytes.drop pos) with
    | none =>
      rw [Nat.max_eq_right (by omega)]
      apply Reading.pure
    | some r =>
      rcases r with ⟨p, value, len⟩
      have hle := le_of_scan hscan
      have hbound := contents.bound
      have hnext : (checkedAdd pos p).bind (checkedAdd · len) = some (pos + p + len) := by
        unfold maxFileLen at hbound
        rw [checkedAdd_eq_some (by omega), Option.bind_some, checkedAdd_eq_some (by omega)]
      apply Reading.bind_ok (Reading.context hnext)
      apply Reading.bind_ok (Reading.seek_start _)
      apply Reading.pure

theorem reading_headerHasAtLeastOne (contents : Contents) (pos : Nat) :
    Reading (headerHasAtLeastOne c) contents pos
      (.ok (readNext c contents 0).1.isSome, pos) := by
  unfold headerHasAtLeastOne
  apply Reading.bind_ok Reading.streamPosition
  apply Reading.bind_ok (Reading.seek_start _)
  apply Reading.bind_ok (reading_headerReadNext _ _)
  apply Reading.bind_ok (Reading.seek_start _)
  apply Reading.pure

theorem parseRecord_append {bytes : Bytes} {r : T × Nat} (h : parseRecord c bytes = some r)
    (rest : Bytes) : parseRecord c (bytes ++ rest) = some r := by
  rcases r with ⟨value, n⟩
  rcases of_parseRecord h with ⟨hlong, hn, hle, hmagic, hcrc, hvalue⟩
  unfold headerLen at hlong hn
  have hmagic' : (bytes ++ rest).take 2 = bytes.take 2 := List.take_append_of_le_length (by omega)
  have hcrc' : ((bytes ++ rest).drop 2).take 4 = (bytes.drop 2).take 4 := by
    rw [List.drop_append_of_le_length (by omega), List.take_append_of_le_length (by simp; omega)]
  have hlen' : ((bytes ++ rest).drop 6).take 4 = (bytes.drop 6).take 4 := by
    rw [List.drop_append_of_le_length (by omega), List.take_append_of_le_length (by simp; omega)]
  have hpayload : declaredPayload (bytes ++ rest) = declaredPayload bytes := by
    unfold declaredPayload headerLen
    rw [hlen', List.drop_append_of_le_length (by omega),
      List.take_append_of_le_length (by simp; omega)]
  rw [parseRecord_long (by rw [List.length_append]; unfold headerLen; omega), hmagic', hcrc', hlen',
    hpayload, if_pos ⟨hmagic, by rw [List.length_append]; unfold headerLen; omega, hcrc⟩, hvalue,
    hn]
  rfl

-- the offsets at which the records of `values` stand when the first one stands at `pos`
def placed (c : Codec T) (pos : Nat) : List T → List (Nat × T)
  | [] => []
  | value :: values => (pos, value) :: placed c (pos + (encoded c value).length) values

@[simp]
theorem map_snd_placed (pos : Nat) (values : List T) :
    (placed c pos values).map Prod.snd = values := by
  induction values generalizing pos with
  | nil => rfl
  | cons value values ih => rw [placed, List.map_cons, ih]

theorem le_of_mem_placed {pos : Nat} {values : List T} {r : Nat × T}
    (h : r ∈ placed c pos values) : pos ≤ r.1 ∧ r.1 ≤ pos + (encodedAll c values).length := by
  induction values generalizing pos with
  | nil => contradiction
  | cons value values ih =>
    rw [encodedAll_cons, List.length_append]
    cases List.mem_cons.mp h with
    | inl heq =>
      rw [heq]
      exact ⟨Nat.le_refl _, Nat.le_add_right _ _⟩
    | inr hmem =>
      have := ih hmem
      omega

/--
Records that stand one after the other are read one after the other, up to the first that stands
beyond `bound`.
-/
theorem drain_placed (before rest : Bytes) (bound : Nat) {values : List T}
    (h : ∀ value ∈ values, Writable c value) :
    drain (recordParser c) (before ++ encodedAll c values ++ rest) bound before.length
      =
    ((placed c before.length values).filter fun r => r.1 ≤ bound)
      ++ drain (recordParser c) (before ++ encodedAll c values ++ rest) bound
        (before.length + (encodedAll c values).length) := by
  induction values generalizing before with
  | nil => rfl
  | cons value values ih =>
    by_cases hle : before.length ≤ bound
    . have hparse : (recordParser c).parse
          ((before ++ encodedAll c (value :: values) ++ rest).drop before.length)
          = some (value, (encoded c value).length) := by
        rw [List.append_assoc, List.drop_left, encodedAll_cons, List.append_assoc]
        apply parseRecord_encoded (h value List.mem_cons_self)
      have hrest := ih (before ++ encoded c value) fun v hv => h v (List.mem_cons_of_mem _ hv)
      simp only [List.length_append, encodedAll_cons, List.append_assoc] at hparse hrest ⊢
      rw [drain_of_parse _ hle hparse, hrest, placed, List.filter_cons_of_pos (by simpa using hle),
        List.cons_append, Nat.add_assoc]
    . rw [drain_of_gt _ (by omega), drain_of_gt _ (by omega), List.append_nil]
      apply Eq.symm
      rw [List.filter_eq_nil_iff]
      intro r hr
      have := (le_of_mem_placed hr).1
      rw [decide_eq_true_eq]
      omega

theorem drain_encodedAll (before rest : Bytes) (bound : Nat) {values : List T}
    (h : ∀ value ∈ values, Writable c value)
    (hbound : before.length + (encodedAll c values).length ≤ bound) :
    drain (recordParser c) (before ++ encodedAll c values ++ rest) bound before.length
      =
    placed c before.length values
      ++ drain (recordParser c) (before ++ encodedAll c values ++ rest) bound
        (before.length + (encodedAll c values).length) := by
  have hall : ((placed c before.length values).filter fun r => r.1 ≤ bound)
      = placed c before.length values := by
    rw [List.filter_eq_self]
    intro r hr
    have := (le_of_mem_placed hr).2
    rw [decide_eq_true_eq]
    omega
  rw [drain_placed before rest bound h, hall]

theorem run_headerWrite {m : Machine Call Disk File} {value : T} (hvalue : Serializable c value)
    (hspace : (m.disk.read m.self.path).length + (encoded c value).length ≤ maxFileLen)
    (hfaults : ∀ j < 2, m.faults (m.history.length + j) = none) :
    ∃ m', (headerWrite c value).run m = .ok () m' ∧ m'.faults = m.faults
      ∧ m'.history.length = m.history.length + 2 := by
  let old := m.disk.read m.self.path
  let m1 := m.record (.seek m.self.path (.fromEnd 0)) m.disk { m.self with pos := old.length }
  have hseek : (seek (.fromEnd 0)).run m = .ok () m1 := by
    unfold seek
    rw [run_bind_of_ok (run_getSelf m)]
    apply run_readCall_of_ok (hfaults 0 (by decide))
    exact if_pos (Nat.zero_le _)
  have hwrite : ∃ d s, (writeAll (encoded c value)).run m1
      = .ok () (m1.record (.writeAll m.self.path (encoded c value)) d s) := by
    have hover : (overwrite old.bytes old.length (encoded c value)).length ≤ maxFileLen := by
      rw [Contents.length, overwrite_end, List.length_append]
      exact hspace
    unfold writeAll
    rw [run_bind_of_ok (run_getSelf m1)]
    exact ⟨_, _, run_syscall_of_ok (hfaults 1 (by decide)) (dif_pos hover)⟩
  rcases hwrite with ⟨d, s, hwrite⟩
  refine ⟨m1.record (.writeAll m.self.path (encoded c value)) d s, ?_, rfl, rfl⟩
  unfold headerWrite
  rw [run_bind_of_ok hseek, hvalue.serialize_eq, run_bind_of_ok (run_ofExcept_ok _ m1)]
  exact hwrite

theorem wp_headerWrite {A : Disk → Prop} {Q : Unit → Machine Call Disk File → Prop}
    {E : Failure Error → Machine Call Disk File → Prop} {m : Machine Call Disk File} {value : T}
    (hvalue : Serializable c value) {old : Contents} (hold : m.disk.read m.self.path = old)
    (hread : m.disk.get? m.self.path = some old)
    (hok : ∀ m' new, Extends m m' → new.bytes = old.bytes ++ encoded c value →
      m'.disk = m.disk.write m.self.path new → m'.self = ⟨m.self.path, new.length⟩ → Q () m')
    (hfail : ∀ e m' new b, Extends m m' → new.bytes = old.bytes ++ b → b <+: encoded c value →
      b ≠ encoded c value → m'.disk = m.disk.write m.self.path new →
      m'.self.path = m.self.path → (e = .fault ∨ e = .raised .fileTooLarge) → E e m') :
    wp A (headerWrite c value) Q E m := by
  unfold headerWrite
  apply wp_bind
  apply wp_seek
  . rw [hold]
    apply Reading.seek_fromEnd (Nat.zero_le _)
  . intro m1 hm1 hself1
    apply wp_bind
    apply wp_ofExcept (hvalue.serialize_eq)
    have hpath1 : m1.self.path = m.self.path := by rw [hself1]
    have hread1 : m1.disk.read m1.self.path = old := by rw [hm1.disk_eq, hpath1, hold]
    apply wp_writeAll hread1
    . rw [hself1]
      rfl
    . intro m' new hm' hnew hdisk hself
      rw [hm1.disk_eq, hpath1] at hdisk
      rw [hpath1] at hself
      exact hok m' new (hm1.later.trans hm') hnew hdisk hself
    . intro e m' new b hm' hnew hb hne hdisk hself he
      rw [hm1.disk_eq, hpath1] at hdisk
      rw [← hself] at hpath1
      apply hfail e m' new b (hm1.later.trans hm') hnew hb _ hdisk hpath1 he
      intro heq
      exact hvalue.encoded_ne_nil (hne heq)
  . intro m' hm' hpath
    -- the file is as it was, that is the empty prefix has been written
    apply hfail .fault m' old [] hm'.later (by simp) List.nil_prefix _ _ hpath (Or.inl rfl)
    . exact hvalue.encoded_ne_nil.symm
    . rw [hm'.disk_eq, Disk.write_self hread]

end Chickadee
