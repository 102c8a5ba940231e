import Provenance.Cbor.Reader
import Mathlib.Tactic.Ring

/-!
# Reading what was written

An item whose sizes and numbers fit a head (`Item.isSized`) is read back from its encoding, and what
follows the encoding is left over. Main statement: `Item.read_encode`.

The fuel of the reader is counted in bytes. Every item starts with a head of its own, so a reader
that has `fuel` steps left can read each item of at most `(fuel + 1) / 2` bytes.
-/

namespace Provenance

/-! ## Numbers of a fixed width -/

namespace Bytes

theorem foldl_ofNatBE (width n acc : Nat) :
    (ofNatBE width n).foldl (fun m b => m * 256 + b.toNat) acc =
      acc * 256 ^ width + n % 256 ^ width := by
  induction width generalizing acc with
  | zero => simp [ofNatBE, Nat.mod_one]
  | succ width ih =>
    have hb : (UInt8.ofNat (n >>> (8 * width))).toNat = n / 256 ^ width % 256 := by
      rw [UInt8.toNat_ofNat', Nat.shiftRight_eq_div_pow, Nat.pow_mul]
    rw [ofNatBE, List.foldl_cons, ih, hb, Nat.pow_succ, Nat.mod_mul]
    ring

theorem toNatBE_ofNatBE {width n : Nat} (h : n < 256 ^ width) :
    toNatBE (ofNatBE width n) = n := by
  rw [toNatBE, foldl_ofNatBE, Nat.mod_eq_of_lt h, Nat.zero_mul, Nat.zero_add]

end Bytes

/-! ## Heads -/

theorem takeExactly_append (bs rest : Bytes) :
    takeExactly bs.length (bs ++ rest) = some (bs, rest) := by
  unfold takeExactly
  rw [if_pos (by simp), List.take_left, List.drop_left]

theorem takeExactly_ofNatBE (width n : Nat) (rest : Bytes) :
    takeExactly width (Bytes.ofNatBE width n ++ rest) = some (Bytes.ofNatBE width n, rest) := by
  have h := takeExactly_append (Bytes.ofNatBE width n) rest
  rw [Bytes.length_ofNatBE] at h
  exact h

/-- A head is one byte, made of the major type and five low bits, and the argument that these
announce. Only numbers of more than one byte have low bits that could be those of a float. -/
theorem head_eq {n : Nat} (h : n < 2 ^ 64) (major : Nat) :
    ∃ low argument, Item.head major n = UInt8.ofNat (major * 32 + low) :: argument ∧ low < 28 ∧
      (n < 0x100 → low < 25) ∧
        ∀ rest, readArgument low (argument ++ rest) = some (some n, rest) := by
  have hwide : ∀ width, n < 256 ^ width → ∀ rest,
      (takeExactly width (Bytes.ofNatBE width n ++ rest)).map
        (fun r => (some (Bytes.toNatBE r.1), r.2)) = some (some n, rest) := by
    intro width hw rest
    rw [takeExactly_ofNatBE, Option.map_some, Bytes.toNatBE_ofNatBE hw]
  unfold Item.head
  split
  · rename_i h0
    refine ⟨n, [], rfl, by omega, fun _ => by omega, fun rest => ?_⟩
    unfold readArgument
    rw [if_pos h0]
    rfl
  · split
    · rename_i h1
      exact ⟨24, _, rfl, by omega, fun _ => by omega, hwide 1 (by omega)⟩
    · split
      · rename_i h1 h2
        exact ⟨25, _, rfl, by omega, fun h8 => absurd h8 h1, hwide 2 (by omega)⟩
      · split
        · rename_i h1 _ h4
          exact ⟨26, _, rfl, by omega, fun h8 => absurd h8 h1, hwide 4 (by omega)⟩
        · rename_i h1 _ _
          exact ⟨27, _, rfl, by omega, fun h8 => absurd h8 h1, hwide 8 (by omega)⟩

theorem length_head_pos (major n : Nat) : 1 ≤ (Item.head major n).length := by
  unfold Item.head
  split
  · exact Nat.le_refl 1
  · split
    · exact Nat.le_add_left 1 _
    · split
      · exact Nat.le_add_left 1 _
      · split <;> exact Nat.le_add_left 1 _

theorem firstByte {major low : Nat} (hm : major < 8) (hl : low < 32) :
    (UInt8.ofNat (major * 32 + low)).toNat / 32 = major ∧
      (UInt8.ofNat (major * 32 + low)).toNat % 32 = low := by
  have h : (UInt8.ofNat (major * 32 + low)).toNat = major * 32 + low := by
    rw [UInt8.toNat_ofNat']
    omega
  rw [h]
  constructor <;> omega

/-- The head of a major type below seven with its argument. -/
def Head.ofMajor (major n : Nat) : Head :=
  match major with
  | 0 => .unsigned n
  | 1 => .negative n
  | 2 => .bytes (some n)
  | 3 => .text (some n)
  | 4 => .array (some n)
  | 5 => .map (some n)
  | _ => .tag n

theorem Head.read_head {major n : Nat} (hm : major < 7) (hn : n < 2 ^ 64) (rest : Bytes) :
    Head.read (Item.head major n ++ rest) = some (Head.ofMajor major n, rest) := by
  obtain ⟨low, argument, heq, hlow, -, hread⟩ := head_eq hn major
  obtain ⟨hdiv, hmod⟩ := firstByte (show major < 8 by omega) (show low < 32 by omega)
  rw [heq, List.cons_append, Head.read, hdiv, hmod]
  have hcases : major = 0 ∨ major = 1 ∨ major = 2 ∨ major = 3 ∨ major = 4 ∨ major = 5 ∨
      major = 6 := by
    omega
  rcases hcases with rfl | rfl | rfl | rfl | rfl | rfl | rfl <;> simp only [hread] <;> rfl

theorem Head.read_simple {code : Nat} (h : code < 0x100) (rest : Bytes) :
    Head.read (Item.head 7 code ++ rest) = some (.simple code, rest) := by
  obtain ⟨low, argument, heq, -, hlow, hread⟩ := head_eq (show code < 2 ^ 64 by omega) 7
  have hl : low < 25 := hlow h
  obtain ⟨hdiv, hmod⟩ := firstByte (show 7 < 8 by omega) (show low < 32 by omega)
  rw [heq, List.cons_append, Head.read, hdiv, hmod]
  split
  · omega
  · omega
  · omega
  · rw [hread]
    rfl

theorem Head.read_float {bits : Bytes} (h : bits.length = 2 ∨ bits.length = 4 ∨ bits.length = 8)
    (rest : Bytes) :
    Head.read (Item.floatHead bits :: (bits ++ rest)) = some (.float bits, rest) := by
  have hbits := takeExactly_append bits rest
  unfold Item.floatHead
  rcases h with h | h | h <;> rw [h] at hbits ⊢ <;>
    simp [Head.read, readFloat, hbits]

/-! ## Strings -/

/-- The major type of a byte or text string, and the head of one. -/
def stringMajor (isText : Bool) : Nat := if isText then 3 else 2

def Head.ofString (isText : Bool) (size : Option Nat) : Head :=
  if isText then .text size else .bytes size

theorem stringMajor_lt (isText : Bool) : stringMajor isText < 7 := by
  cases isText <;> decide

theorem ofMajor_stringMajor (isText : Bool) (n : Nat) :
    Head.ofMajor (stringMajor isText) n = Head.ofString isText (some n) := by
  cases isText <;> rfl

theorem pieceSize?_ofString (isText : Bool) (size : Option Nat) :
    (Head.ofString isText size).pieceSize? isText = some size := by
  cases isText <;> rfl

/-- The sizes of a string that is written in one piece, or in several, fit a head. -/
def Pieces.isSized : Pieces → Bool
  | .whole content => content.length < 2 ^ 64
  | .parts contents => contents.all (fun part => part.length < 2 ^ 64)

theorem readParts_encode (isText : Bool) {contents : List Bytes} {fuel : Nat} (rest : Bytes)
    (hs : ∀ part ∈ contents, part.length < 2 ^ 64) (hf : contents.length < fuel) :
    readParts isText fuel 0
      ((contents.map (Item.encodePart (stringMajor isText))).flatten ++ 0xff :: rest) =
        some (contents, rest) := by
  induction contents generalizing fuel with
  | nil =>
    cases fuel with
    | zero => simp at hf
    | succ fuel => rfl
  | cons part contents ih =>
    cases fuel with
    | zero => simp at hf
    | succ fuel =>
      have hpart : part.length < 2 ^ 64 := hs part (List.mem_cons_self ..)
      have ih' := ih (fun p hp => hs p (List.mem_cons_of_mem part hp)) (Nat.lt_of_succ_lt_succ hf)
      rw [List.map_cons, List.flatten_cons, Item.encodePart, List.append_assoc, List.append_assoc,
        readParts, Head.read_head (stringMajor_lt isText) hpart, ofMajor_stringMajor]
      simp only [Option.bind_eq_bind, Option.bind_some]
      -- The head of a string is no stop.
      split
      · cases isText <;> contradiction
      · cases isText <;> contradiction
      · simp only [pieceSize?_ofString, takeExactly_append, Option.bind_some, ih']
        rfl

theorem length_le_flatten_encodePart (major : Nat) (contents : List Bytes) :
    contents.length ≤ (contents.map (Item.encodePart major)).flatten.length := by
  induction contents with
  | nil => exact Nat.le_refl 0
  | cons part contents ih =>
    have hh := length_head_pos major part.length
    simp only [List.length_cons, List.map_cons, List.flatten_cons, List.length_append,
      Item.encodePart]
    omega

theorem readPieces_encode (isText : Bool) {p : Pieces} (hp : p.isSized = true) {fuel : Nat}
    (hf : 2 * (Item.encodePieces (stringMajor isText) p).length ≤ fuel + 2) (rest : Bytes) :
    ∃ size bs, Head.read (Item.encodePieces (stringMajor isText) p ++ rest) =
      some (Head.ofString isText size, bs) ∧ readPieces isText fuel size bs = some (p, rest) := by
  cases p with
  | whole content =>
    simp only [Pieces.isSized, decide_eq_true_eq] at hp
    refine ⟨some content.length, content ++ rest, ?_, ?_⟩
    · rw [Item.encodePieces, Item.encodePart, List.append_assoc,
        Head.read_head (stringMajor_lt isText) hp, ofMajor_stringMajor]
    · simp only [readPieces, takeExactly_append, Option.map_some]
  | parts contents =>
    simp only [Pieces.isSized, List.all_eq_true, decide_eq_true_eq] at hp
    have hl := length_le_flatten_encodePart (stringMajor isText) contents
    simp only [Item.encodePieces, List.length_cons, List.length_append] at hf
    refine ⟨none, (contents.map (Item.encodePart (stringMajor isText))).flatten ++ 0xff :: rest,
      ?_, ?_⟩
    · simp only [Item.encodePieces, List.append_assoc, List.cons_append, List.nil_append]
      cases isText <;> rfl
    · rw [readPieces, readParts_encode isText rest hp (by omega)]
      rfl

/-! ## Items -/

namespace Item

mutual

/-- All sizes and numbers in an item fit a head. -/
def isSized : Item → Bool
  | .unsigned n => n < 2 ^ 64
  | .negative n => n < 2 ^ 64
  | .bytes content => content.isSized
  | .text content => content.isSized
  | .array items => items.length < 2 ^ 64 && allSized items
  | .map entries => entries.length < 2 ^ 64 && entriesSized entries
  | .tag number item => number < 2 ^ 64 && isSized item
  | .simple code => code < 0x100
  | .float bits => bits.length = 2 || bits.length = 4 || bits.length = 8

def allSized : List Item → Bool
  | [] => true
  | item :: rest => isSized item && allSized rest

def entriesSized : List (Item × Item) → Bool
  | [] => true
  | (key, value) :: rest => isSized key && isSized value && entriesSized rest

end

theorem length_encode_pos (item : Item) : 1 ≤ item.encode.length := by
  have hpieces : ∀ major p, 1 ≤ (encodePieces major p).length := by
    intro major p
    cases p with
    | whole content =>
      have hh := length_head_pos major content.length
      simp only [encodePieces, encodePart, List.length_append]
      omega
    | parts contents =>
      simp only [encodePieces, List.length_cons, List.length_append]
      omega
  have hhead : ∀ major n (bs : Bytes), 1 ≤ (head major n ++ bs).length := by
    intro major n bs
    have hh := length_head_pos major n
    rw [List.length_append]
    omega
  cases item with
  | unsigned n => exact length_head_pos 0 n
  | negative n => exact length_head_pos 1 n
  | bytes content => exact hpieces 2 content
  | text content => exact hpieces 3 content
  | array items => exact hhead 4 _ _
  | map entries => exact hhead 5 _ _
  | tag number item => exact hhead 6 _ _
  | simple code => exact length_head_pos 7 code
  | float bits => exact Nat.le_add_left 1 _

mutual

theorem readItem_encode : ∀ (item : Item) (fuel : Nat) (rest : Bytes), item.isSized = true →
    2 * item.encode.length ≤ fuel + 1 → readItem fuel (item.encode ++ rest) = some (item, rest)
  | item, 0, rest, _, hf => by
    have hl := length_encode_pos item
    omega
  | .unsigned n, fuel + 1, rest, hs, _ => by
    simp only [isSized, decide_eq_true_eq] at hs
    rw [encode, readItem, Head.read_head (by decide) hs]
    rfl
  | .negative n, fuel + 1, rest, hs, _ => by
    simp only [isSized, decide_eq_true_eq] at hs
    rw [encode, readItem, Head.read_head (by decide) hs]
    rfl
  | .bytes content, fuel + 1, rest, hs, hf => by
    simp only [isSized] at hs
    rw [encode] at hf ⊢
    obtain ⟨size, bs, hhead, hread⟩ := readPieces_encode false hs hf rest
    rw [readItem]
    simp only [show (2 : Nat) = stringMajor false from rfl, hhead, Head.ofString,
      Option.bind_eq_bind, Option.bind_some, Bool.false_eq_true, if_false, hread]
    rfl
  | .text content, fuel + 1, rest, hs, hf => by
    simp only [isSized] at hs
    rw [encode] at hf ⊢
    obtain ⟨size, bs, hhead, hread⟩ := readPieces_encode true hs hf rest
    rw [readItem]
    simp only [show (3 : Nat) = stringMajor true from rfl, hhead, Head.ofString,
      Option.bind_eq_bind, Option.bind_some, if_true, hread]
    rfl
  | .array items, fuel + 1, rest, hs, hf => by
    simp only [isSized, Bool.and_eq_true, decide_eq_true_eq] at hs
    have hh := length_head_pos 4 items.length
    simp only [encode, List.length_append] at hf
    have hitems := readItems_encodeAll items fuel rest hs.2 (by omega)
    rw [encode, List.append_assoc, readItem, Head.read_head (by decide) hs.1]
    simp only [Head.ofMajor, Option.bind_eq_bind, Option.bind_some, hitems]
    rfl
  | .map entries, fuel + 1, rest, hs, hf => by
    simp only [isSized, Bool.and_eq_true, decide_eq_true_eq] at hs
    have hh := length_head_pos 5 entries.length
    simp only [encode, List.length_append] at hf
    have hentries := readEntries_encodeEntries entries fuel rest hs.2 (by omega)
    rw [encode, List.append_assoc, readItem, Head.read_head (by decide) hs.1]
    simp only [Head.ofMajor, Option.bind_eq_bind, Option.bind_some, hentries]
    rfl
  | .tag number item, fuel + 1, rest, hs, hf => by
    simp only [isSized, Bool.and_eq_true, decide_eq_true_eq] at hs
    have hh := length_head_pos 6 number
    simp only [encode, List.length_append] at hf
    have hitem := readItem_encode item fuel rest hs.2 (by omega)
    rw [encode, List.append_assoc, readItem, Head.read_head (by decide) hs.1]
    simp only [Head.ofMajor, Option.bind_eq_bind, Option.bind_some, hitem]
    rfl
  | .simple code, fuel + 1, rest, hs, _ => by
    simp only [isSized, decide_eq_true_eq] at hs
    rw [encode, readItem, Head.read_simple hs]
    rfl
  | .float bits, fuel + 1, rest, hs, _ => by
    simp only [isSized, Bool.or_eq_true, decide_eq_true_eq, or_assoc] at hs
    rw [encode, List.cons_append, readItem, Head.read_float hs]
    rfl

theorem readItems_encodeAll : ∀ (items : List Item) (fuel : Nat) (rest : Bytes),
    allSized items = true → 2 * (encodeAll items).length ≤ fuel →
      readItems fuel items.length (encodeAll items ++ rest) = some (items, rest)
  | [], fuel, rest, _, _ => by
    cases fuel <;> rfl
  | item :: items, 0, rest, _, hf => by
    have hl := length_encode_pos item
    simp only [encodeAll, List.length_append] at hf
    omega
  | item :: items, fuel + 1, rest, hs, hf => by
    have hl := length_encode_pos item
    simp only [allSized, Bool.and_eq_true] at hs
    simp only [encodeAll, List.length_append] at hf
    have hitem := readItem_encode item fuel (encodeAll items ++ rest) hs.1 (by omega)
    have hitems := readItems_encodeAll items fuel rest hs.2 (by omega)
    rw [encodeAll, List.append_assoc, List.length_cons, readItems, hitem]
    simp only [Option.bind_eq_bind, Option.bind_some, hitems]
    rfl

theorem readEntries_encodeEntries : ∀ (entries : List (Item × Item)) (fuel : Nat) (rest : Bytes),
    entriesSized entries = true → 2 * (encodeEntries entries).length ≤ fuel →
      readEntries fuel entries.length (encodeEntries entries ++ rest) = some (entries, rest)
  | [], fuel, rest, _, _ => by
    cases fuel <;> rfl
  | (key, value) :: entries, 0, rest, _, hf => by
    have hl := length_encode_pos key
    simp only [encodeEntries, List.length_append] at hf
    omega
  | (key, value) :: entries, fuel + 1, rest, hs, hf => by
    have hk := length_encode_pos key
    have hv := length_encode_pos value
    simp only [entriesSized, Bool.and_eq_true] at hs
    simp only [encodeEntries, List.length_append] at hf
    have hkey := readItem_encode key fuel (encode value ++ (encodeEntries entries ++ rest)) hs.1.1
      (by omega)
    have hvalue := readItem_encode value fuel (encodeEntries entries ++ rest) hs.1.2 (by omega)
    have hentries := readEntries_encodeEntries entries fuel rest hs.2 (by omega)
    rw [encodeEntries, List.append_assoc, List.append_assoc, List.length_cons, readEntries, hkey]
    simp only [Option.bind_eq_bind, Option.bind_some, hvalue, hentries]
    rfl

end

/-- **Round trip of items.** -/
theorem read_encode {item : Item} (h : item.isSized = true) (rest : Bytes) :
    read (item.encode ++ rest) = some (item, rest) := by
  unfold read
  apply readItem_encode item _ rest h
  rw [List.length_append]
  omega

end Item

end Provenance
