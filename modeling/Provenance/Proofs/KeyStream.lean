import Mathlib.Tactic.Set
import Provenance.Bytes

/-!
# Key streams

A stream cipher cuts the text into blocks and adds to each block the one of the same number in its
key stream. Added a second time the stream cancels, so that such a cipher is its own inverse
(`Bytes.addStream_addStream`), whatever makes the stream.
-/

namespace Provenance.Bytes

theorem length_xor (x y : Bytes) : (xor x y).length = min x.length y.length :=
  List.length_zipWith

theorem xor_xor_self {x stream : Bytes} (h : x.length ≤ stream.length) :
    xor (xor x stream) stream = x := by
  induction x generalizing stream with
  | nil => rfl
  | cons b x ih =>
    cases stream with
    | nil => exact absurd h (by simp)
    | cons s stream =>
      have hrest : xor (xor x stream) stream = x := ih (by simpa using h)
      have hhead : b ^^^ s ^^^ s = b := by rw [UInt8.xor_assoc, UInt8.xor_self, UInt8.xor_zero]
      simp only [xor, List.zipWith_cons_cons] at hrest ⊢
      rw [hrest, hhead]

/-- Blocks of text with the key stream added, from the block of the given number on. -/
def addStream (stream : Nat → Bytes) (number : Nat) : List Bytes → Bytes
  | [] => []
  | b :: bs => xor b (stream number) ++ addStream stream (number + 1) bs

theorem length_le_count {size : Nat} (hpos : 0 < size) (bs : Bytes) :
    bs.length ≤ (bs.length + size - 1) / size * size := by
  have h := Nat.lt_div_mul_add (a := bs.length + size - 1) hpos
  omega

theorem length_takeBlocks (size count : Nat) (bs : Bytes) :
    (takeBlocks size count bs).length = count := by
  induction count generalizing bs with
  | zero => rfl
  | succ count ih => rw [takeBlocks, List.length_cons, ih]

/-- A string of so many whole blocks is cut into these. -/
theorem length_of_mem_takeBlocks {size count : Nat} {bs : Bytes} (h : bs.length = count * size) :
    ∀ b ∈ takeBlocks size count bs, b.length = size := by
  induction count generalizing bs with
  | zero => exact fun b hb => absurd hb List.not_mem_nil
  | succ count ih =>
    rw [Nat.succ_mul] at h
    have hrest : (bs.drop size).length = count * size := by rw [List.length_drop]; omega
    refine List.forall_mem_cons.mpr ⟨?_, ih hrest⟩
    rw [List.length_take]
    omega

theorem length_flatten {size : Nat} {bs : List Bytes} (h : ∀ b ∈ bs, b.length = size) :
    bs.flatten.length = bs.length * size := by
  induction bs with
  | nil => exact (Nat.zero_mul size).symm
  | cons b bs ih =>
    obtain ⟨hb, hbs⟩ := List.forall_mem_cons.mp h
    rw [List.flatten_cons, List.length_append, hb, ih hbs, List.length_cons, Nat.succ_mul,
      Nat.add_comm]

theorem blocks_eq_takeBlocks {size count : Nat} (hpos : 0 < size) {bs : Bytes}
    (h : bs.length = count * size) : blocks size bs = takeBlocks size count bs := by
  have hcount : (bs.length + size - 1) / size = count :=
    Nat.div_eq_of_lt_le (by omega) (by rw [h, Nat.succ_mul]; omega)
  rw [blocks, hcount]

section

variable {stream : Nat → Bytes} {size : Nat} (hstream : ∀ n, (stream n).length = size)

include hstream

/-- Each block keeps its length, so the sum is cut where the text was. -/
theorem addStream_takeBlocks (count : Nat) :
    ∀ (number : Nat) (text : Bytes), text.length ≤ count * size →
      let sum := addStream stream number (takeBlocks size count text)
      sum.length = text.length ∧ addStream stream number (takeBlocks size count sum) = text := by
  induction count with
  | zero =>
    intro number text h
    obtain rfl : text = [] := List.length_eq_zero_iff.mp (by omega)
    exact ⟨rfl, rfl⟩
  | succ count ih =>
    intro number text h
    rw [Nat.succ_mul] at h
    obtain ⟨hlength, hrest⟩ := ih (number + 1) (text.drop size) (by rw [List.length_drop]; omega)
    have hblock : (text.take size).length ≤ (stream number).length := by
      rw [hstream, List.length_take]
      exact Nat.min_le_left ..
    set first := xor (text.take size) (stream number) with hfirst
    set rest := addStream stream (number + 1) (takeBlocks size count (text.drop size))
    have hsize : first.length = min size text.length := by
      rw [hfirst, length_xor, Nat.min_eq_left hblock, List.length_take]
    have hcut : (first ++ rest).take size = first ∧ (first ++ rest).drop size = rest := by
      rw [List.length_drop] at hlength
      by_cases hlong : size ≤ text.length
      · exact ⟨List.take_left' (by omega), List.drop_left' (by omega)⟩
      · obtain hnil : rest = [] := List.length_eq_zero_iff.mp (by omega)
        rw [hnil, List.append_nil]
        exact ⟨List.take_of_length_le (by omega), List.drop_of_length_le (by omega)⟩
    simp only [takeBlocks, addStream]
    refine ⟨?_, ?_⟩
    · rw [List.length_append, hsize, hlength, List.length_drop]
      omega
    · rw [hcut.1, hcut.2, hrest, hfirst, xor_xor_self hblock, List.take_append_drop]

theorem length_addStream (hpos : 0 < size) (number : Nat) (text : Bytes) :
    (addStream stream number (blocks size text)).length = text.length :=
  (addStream_takeBlocks hstream _ number text (length_le_count hpos text)).1

theorem addStream_addStream (hpos : 0 < size) (number : Nat) (text : Bytes) :
    addStream stream number (blocks size (addStream stream number (blocks size text))) = text := by
  rw [blocks, length_addStream hstream hpos]
  exact (addStream_takeBlocks hstream _ number text (length_le_count hpos text)).2

end

end Provenance.Bytes
