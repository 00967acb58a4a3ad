import Chickadee.Impl.Concrete
import Chickadee.Lemmas.SSTable

/-!
This module contains the round trip of the concrete wincode.
-/

namespace Chickadee
namespace Concrete

open LittleEndian

theorem fromUTF8?_bytesOf (s : String) : String.fromUTF8? ⟨(bytesOf s).toArray⟩ = some s := by
  have hbytes : (⟨(bytesOf s).toArray⟩ : ByteArray) = s.toByteArray := rfl
  rw [hbytes]
  unfold String.fromUTF8?
  rw [dif_pos s.isValidUTF8]
  rfl

theorem readStr_writeStr {s : String} (h : (bytesOf s).length < 2 ^ 64) (rest : Bytes) :
    readStr (writeStr s ++ rest) = some (s, rest) := by
  have hlen : (toLe 8 (bytesOf s).length).length = 8 := length_toLe _ _
  have htake : (writeStr s ++ rest).take 8 = toLe 8 (bytesOf s).length := by
    rw [writeStr, List.append_assoc, List.take_left' hlen]
  have hdrop : (writeStr s ++ rest).drop 8 = bytesOf s ++ rest := by
    rw [writeStr, List.append_assoc, List.drop_left' hlen]
  unfold readStr
  rw [htake, hdrop, ofLe_toLe h]
  dsimp only
  rw [if_neg, List.take_left, List.drop_left, fromUTF8?_bytesOf]
  . rfl
  . rw [List.length_append, List.length_append, writeStr, List.length_append, hlen]
    omega

theorem length_writeStr (s : String) : (writeStr s).length = 8 + (bytesOf s).length := by
  rw [writeStr, List.length_append, length_toLe]

theorem roundTrips {entry : Entry} {payload : Bytes} (h : serialize entry = some payload)
    (hlt : payload.length < 2 ^ 32) : crates.RoundTrips entry payload := by
  have htag : ∀ n, (toLe 4 n).length = 4 := fun n => length_toLe 4 n
  refine ⟨h, ?_, ?_, hlt⟩
  . change deserialize payload = some entry
    unfold deserialize
    cases entry with
    | set key value =>
      cases h
      simp only [List.length_append, htag, length_writeStr] at hlt
      rw [List.append_assoc, if_neg (by rw [List.length_append, htag]; omega),
        List.take_left' (htag 0), List.drop_left' (htag 0), ofLe_toLe (by decide)]
      have hvalue := readStr_writeStr (s := value) (by omega) []
      rw [List.append_nil] at hvalue
      simp [readStr_writeStr (s := key) (by omega), hvalue]
    | delete key =>
      cases h
      simp only [List.length_append, htag, length_writeStr] at hlt
      rw [if_neg (by rw [List.length_append, htag]; omega), List.take_left' (htag 1),
        List.drop_left' (htag 1), ofLe_toLe (by decide)]
      have hkey := readStr_writeStr (s := key) (by omega) []
      rw [List.append_nil] at hkey
      simp [hkey]
  . cases entry with
    | set key value =>
      cases h
      rw [List.append_assoc, List.length_append, htag]
      omega
    | delete key =>
      cases h
      rw [List.length_append, htag]
      omega

end Concrete
end Chickadee
