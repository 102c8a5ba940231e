import Provenance.Bytes

/-!
# UTF-8

Text on the wire is its UTF-8 bytes (`Utf8.encode`). Reading accepts exactly the byte strings that
are well formed: no overlong form, no surrogate, nothing above U+10FFFF (`Utf8.decode?`).
Main statements: `Utf8.decode?_encode`, `Utf8.encode_injective`.
-/

namespace Provenance.Utf8

def encode (s : String) : Bytes := s.toUTF8.data.toList

def decode? (bs : Bytes) : Option String := String.fromUTF8? ⟨bs.toArray⟩

def isValid (bs : Bytes) : Bool := (decode? bs).isSome

theorem decode?_encode (s : String) : decode? (encode s) = some s := by
  have h : (⟨(encode s).toArray⟩ : ByteArray) = s.toUTF8 := by simp [encode]
  unfold decode?
  rw [h]
  simp only [String.fromUTF8?, String.fromUTF8, String.toUTF8]
  exact dif_pos s.isValidUTF8

theorem encode_injective {s t : String} (h : encode s = encode t) : s = t := by
  have := decode?_encode s
  rw [h, decode?_encode] at this
  exact (Option.some.inj this).symm

end Provenance.Utf8
