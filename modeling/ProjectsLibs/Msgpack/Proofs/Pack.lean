/-
What packing writes is the bytes of the object, and no object has fewer.

- `encode` is what all the calls of an object write together
  (`packObject_wrote` in RoundTrip).
- `encode_wires`: these are bytes of the object in the format.
- `encode_shortest`: of all bytes of an object without floating-point
  numbers they are the fewest.

# How the three are proved

The first two are inductions on the object. For the bytes of a head the
format asks for a code and the size behind it, high byte first, and each
packing function is compared with it in its ranges; storing a number and
loading it is a remainder, which is the number in the range that the
branch has tested for. A container adds the bytes of its items, and a map
is a list of keys and values in turn.

The third is an induction on the derivation that bytes are those of an
object, and comes down to heads: for every code of the format, the
function that packs takes no more bytes for the same number. Floating
point is left out, since an object with a `double` is packed with eight
bytes though the format has a form with four. The sizes of what is in an
object are numbers of 32 bits in C (`Sized`); an object that has bytes in
the format is of such sizes.
-/
import ProjectsLibs.Msgpack.Pack
import ProjectsLibs.Msgpack.Wire

namespace ProjectsLibs.Msgpack

open Lib

-- ============================================================== integers

/-- The bytes of an integer: those of the packing function of the widest
signed or unsigned type. -/
def packInteger (d : Int) : List UInt8 :=
  if 0 ≤ d then packRealUint64 d else packRealInt64 d

section Integers

variable {toDouble : UInt32 → UInt64} {k : Nat} {code : UInt8}

@[simp] theorem length_store (k : Nat) (d : Int) : (store k d).length = k :=
  length_beBytes _ _

/-- Storing and loading is taking the remainder. -/
theorem beValue_store (k : Nat) (d : Int) :
    beValue (store k d) = (d % 256 ^ k).toNat % 256 ^ k :=
  beValue_beBytes _ _

/-- Which is the number itself if it fits. -/
theorem beValue_store_natCast {n : Nat} (h : n < 256 ^ k) :
    beValue (store k n) = n := by
  rw [beValue_store]
  have hmod : ((n : Int) % 256 ^ k).toNat = n % 256 ^ k := by
    rw [show (256 : Int) ^ k = ((256 ^ k : Nat) : Int) by push_cast; rfl,
      ← Int.natCast_emod]
    rfl
  rw [hmod, Nat.mod_mod, Nat.mod_eq_of_lt h]

/-- One byte is stored as `TAKE8` takes it. -/
theorem store_one (d : Int) : store 1 d = [take8 d] := rfl

theorem take8_toNat (d : Int) : (take8 d).toNat = (d % 256).toNat := by
  show (d % 256).toNat % 256 = _
  omega

/-- A number that is written after its code. -/
theorem scalar_uint {n : Nat} (hcode : (k, code) ∈ uintCodes)
    (hn : n < 256 ^ k) :
    Scalar toDouble true (integer n) (code :: store k n) := by
  have huint : Scalar toDouble true (integer (beValue (store k n)))
      (code :: store k n) := .uint hcode (length_store k n)
  rwa [beValue_store_natCast hn] at huint

/-- A negative number in two's complement. -/
theorem signed_store {d : Int} (hcode : (k, code) ∈ intCodes)
    (hlo : -(2 ^ (8 * k - 1)) ≤ d) (hneg : d < 0) :
    signed k (beValue (store k d)) = d := by
  rw [beValue_store]
  unfold signed
  simp only [List.mem_cons, Prod.mk.injEq, List.not_mem_nil,
    or_false] at hcode
  rcases hcode with ⟨rfl, -⟩ | ⟨rfl, -⟩ | ⟨rfl, -⟩ | ⟨rfl, -⟩
  all_goals
    simp only [Nat.reduceMul, Nat.reduceSub, Nat.reducePow,
      Int.reducePow] at hlo ⊢
    split <;> omega

theorem scalar_int {d : Int} (hcode : (k, code) ∈ intCodes)
    (hlo : -(2 ^ (8 * k - 1)) ≤ d) (hneg : d < 0) :
    Scalar toDouble true (integer d) (code :: store k d) := by
  have hint : Scalar toDouble true (integer (signed k (beValue (store k d))))
      (code :: store k d) := .int hcode (length_store k d)
  rwa [signed_store hcode hlo hneg] at hint

/-- A packed integer is bytes of the integer. -/
theorem scalar_packInteger {d : Int} (hlo : -(2 ^ 63) ≤ d)
    (hhi : d < 2 ^ 64) :
    Scalar toDouble true (integer d) (packInteger d) := by
  unfold packInteger
  by_cases hpos : 0 ≤ d
  · rw [if_pos hpos]
    obtain ⟨n, rfl⟩ := Int.eq_ofNat_of_zero_le hpos
    unfold packRealUint64
    split
    · split
      · have hb : (take8 n).toNat = n := by
          rw [take8_toNat]
          omega
        have hfix : Scalar toDouble true (integer (take8 n).toNat) [take8 n] :=
          .fixnum (by omega)
        rwa [hb] at hfix
      · exact scalar_uint (k := 1) (by decide) (by omega)
    · split
      · exact scalar_uint (k := 2) (by decide) (by omega)
      · split
        · exact scalar_uint (k := 4) (by decide) (by omega)
        · exact scalar_uint (k := 8) (by decide) (by omega)
  · rw [if_neg hpos]
    unfold packRealInt64
    split
    · split
      · split
        · exact scalar_int (k := 8) (by decide) (by omega) (by omega)
        · exact scalar_int (k := 4) (by decide) (by omega) (by omega)
      · split
        · exact scalar_int (k := 2) (by decide) (by omega) (by omega)
        · exact scalar_int (k := 1) (by decide) (by omega) (by omega)
    · have hb : (take8 d).toNat = (d + 256).toNat := by
        rw [take8_toNat]
        omega
      have hfix : Scalar toDouble true
          (integer (signed 1 (take8 d).toNat)) [take8 d] :=
        .negativeFixnum (by omega)
      have hd : signed 1 (take8 d).toNat = d := by
        rw [hb]
        unfold signed
        split <;> omega
      rw [if_pos (by omega)]
      rwa [hd] at hfix

/-- All the packing functions that choose the shortest form agree on the
numbers that their types have. The `msgpack_pack_fix` functions, which
always write the full width, are not among them. -/
theorem packReal_eq (d : Int) :
    (0 ≤ d → (d < 2 ^ 8 → packRealUint8 d = packInteger d)
        ∧ (d < 2 ^ 16 → packRealUint16 d = packInteger d)
        ∧ (d < 2 ^ 32 → packRealUint32 d = packInteger d)
        ∧ packRealUint64 d = packInteger d)
      ∧ (-(2 ^ 7) ≤ d → d < 2 ^ 7 → packRealInt8 d = packInteger d)
      ∧ (-(2 ^ 15) ≤ d → d < 2 ^ 15 → packRealInt16 d = packInteger d)
      ∧ (-(2 ^ 31) ≤ d → d < 2 ^ 31 → packRealInt32 d = packInteger d)
      ∧ packRealInt64 d = packInteger d := by
  unfold packInteger
  refine ⟨fun hpos => ?_, ?_, ?_, ?_, ?_⟩
  · rw [if_pos hpos]
    unfold packRealUint8 packRealUint16 packRealUint32 packRealUint64
    refine ⟨fun h => ?_, fun h => ?_, fun h => ?_, rfl⟩
    · split_ifs <;> rfl
    · split_ifs <;> first | rfl | omega
    · split_ifs <;> rfl
  · intro hlo hhi
    unfold packRealInt8 packRealUint64 packRealInt64
    split_ifs <;> first | rfl | omega
  · intro hlo hhi
    unfold packRealInt16 packRealUint64 packRealInt64
    split_ifs <;> first | rfl | omega
  · intro hlo hhi
    unfold packRealInt32 packRealUint64 packRealInt64
    split_ifs <;> first | rfl | omega
  · unfold packRealUint64 packRealInt64
    split_ifs <;> first | rfl | omega

end Integers

-- ================================================================= heads

section Heads

theorem head_store {small base k n : Nat} {codes : List (Nat × UInt8)}
    {code : UInt8} (hcode : (k, code) ∈ codes) (hn : n < 256 ^ k) :
    Head small base codes n (code :: store k n) := by
  have hsized : Head small base codes (beValue (store k n))
      (code :: store k n) := .sized hcode (length_store k n)
  rwa [beValue_store_natCast hn] at hsized

/-- One byte is stored as it is. -/
theorem store_one_natCast (n : Nat) : store 1 n = [UInt8.ofNat n] := by
  rw [store_one]
  congr 1
  apply UInt8.toNat.inj
  rw [take8_toNat]
  show _ = n % 256
  omega

theorem or_fix_str : ∀ n < 32, (0xa0 : UInt8) ||| UInt8.ofNat n
    = UInt8.ofNat (0xa0 + n) := by decide

theorem or_fix_array : ∀ n < 16, (0x90 : UInt8) ||| UInt8.ofNat n
    = UInt8.ofNat (0x90 + n) := by decide

theorem or_fix_map : ∀ n < 16, (0x80 : UInt8) ||| UInt8.ofNat n
    = UInt8.ofNat (0x80 + n) := by decide

/-- The head that is packed for a string is one of the format. -/
theorem packStr_head {n : Nat} (h : n < 2 ^ 32) : StrHead n (packStr n) := by
  unfold packStr
  split
  · rename_i hsmall
    rw [or_fix_str n hsmall]
    exact .fix hsmall
  · rw [← store_one_natCast]
    split
    · exact head_store (by decide) (by omega)
    · split
      · exact head_store (by decide) (by omega)
      · exact head_store (by decide) (by omega)

theorem packBin_head {n : Nat} (h : n < 2 ^ 32) : BinHead n (packBin n) := by
  unfold packBin
  rw [← store_one_natCast]
  split
  · exact head_store (by decide) (by omega)
  · split
    · exact head_store (by decide) (by omega)
    · exact head_store (by decide) (by omega)

theorem packArray_head {n : Nat} (h : n < 2 ^ 32) :
    ArrayHead n (packArray n) := by
  unfold packArray
  split
  · rename_i hsmall
    rw [or_fix_array n hsmall]
    exact .fix hsmall
  · split
    · exact head_store (by decide) (by omega)
    · exact head_store (by decide) (by omega)

theorem packMap_head {n : Nat} (h : n < 2 ^ 32) : MapHead n (packMap n) := by
  unfold packMap
  split
  · rename_i hsmall
    rw [or_fix_map n hsmall]
    exact .fix hsmall
  · split
    · exact head_store (by decide) (by omega)
    · exact head_store (by decide) (by omega)

/-- And for an extension, up to the length that the format leaves out. -/
theorem extHead_store {k n : Nat} {code : UInt8}
    (hcode : (k, code) ∈ [(1, (0xc7 : UInt8)), (2, 0xc8), (4, 0xc9)])
    (hn : n < 256 ^ k) (hmax : n + 1 < 2 ^ 32) :
    ExtHead n (code :: store k n) := by
  have hvalue := beValue_store_natCast hn
  have hsized : ExtHead (beValue (store k n)) (code :: store k n) :=
    .sized hcode (length_store k n) (by omega)
  rwa [hvalue] at hsized

/-- The type of an extension comes last in what is written for its head. -/
theorem packExt_head {n : Nat} (type : Int8) (h : n + 1 < 2 ^ 32) :
    ∃ head, packExt n type = head ++ [type.toUInt8] ∧ ExtHead n head := by
  unfold packExt
  split
  · exact ⟨[0xd4], rfl, .fixext (by decide)⟩
  · exact ⟨[0xd5], rfl, .fixext (by decide)⟩
  · exact ⟨[0xd6], rfl, .fixext (by decide)⟩
  · exact ⟨[0xd7], rfl, .fixext (by decide)⟩
  · exact ⟨[0xd8], rfl, .fixext (by decide)⟩
  · split
    · refine ⟨0xc7 :: store 1 n, ?_, extHead_store (by decide)
        (by omega) h⟩
      rw [store_one_natCast]
      rfl
    · split
      · exact ⟨0xc8 :: store 2 n, rfl, extHead_store (by decide)
          (by omega) h⟩
      · exact ⟨0xc9 :: store 4 n, rfl, extHead_store (by decide)
          (by omega) h⟩

end Heads

-- =============================================================== objects

mutual

/-- All that is written for an object. -/
def encode : Value → List UInt8
  | .nil => [0xc0]
  | .boolean b => if b then [0xc3] else [0xc2]
  | .positiveInteger d => packRealUint64 d.toNat
  | .negativeInteger d => packRealInt64 d.toInt
  | .float d => packDouble d
  | .str body => packStr body.length ++ body
  | .bin body => packBin body.length ++ body
  | .ext type body => packExt body.length type ++ body
  | .array items => packArray items.length ++ encodeItems items
  | .map kvs => packMap kvs.length ++ encodeKvs kvs

def encodeItems : List Value → List UInt8
  | [] => []
  | o :: rest => encode o ++ encodeItems rest

def encodeKvs : List (Value × Value) → List UInt8
  | [] => []
  | (k, v) :: rest => encode k ++ encode v ++ encodeKvs rest

end

/-- The size of an object is a number of 32 bits, and less than the greatest
if it is that of an extension; a negative integer is negative. -/
def SizedHere : Value → Prop
  | .negativeInteger d => d.toInt < 0
  | .str body => body.length < 2 ^ 32
  | .bin body => body.length < 2 ^ 32
  | .ext _ body => body.length + 1 < 2 ^ 32
  | .array items => items.length < 2 ^ 32
  | .map kvs => kvs.length < 2 ^ 32
  | _ => True

/-- So it is of the object and all that is in it. -/
abbrev Sized : Value → Prop := Object.Every SizedHere

section Objects

variable {toDouble : UInt32 → UInt64} {d : Int}

/-- Keys and values one after the other, as objects are. -/
theorem encodeKvs_eq (kvs : List (Value × Value)) :
    encodeKvs kvs = encodeItems (inTurn kvs) := by
  induction kvs with
  | nil => rfl
  | cons kv rest ih =>
      obtain ⟨k, v⟩ := kv
      rw [encodeKvs, ih, List.append_assoc]
      rfl

/-- Keys and values in turn are the keys and the values. -/
theorem mem_inTurn {kvs : List (Value × Value)} {o : Value} :
    o ∈ inTurn kvs ↔ ∃ kv ∈ kvs, o = kv.1 ∨ o = kv.2 := by
  simp [inTurn]

/-- What is written for an integer. -/
theorem encode_integer (hlo : -(2 ^ 63) ≤ d) (hhi : d < 2 ^ 64) :
    encode (integer d) = packInteger d := by
  unfold integer packInteger
  split
  · rename_i hpos
    have hback : ((UInt64.ofNat d.toNat).toNat : Int) = d := by
      rw [UInt64.toNat_ofNat_of_lt' (by
        show d.toNat < 2 ^ 64
        omega)]
      omega
    rw [encode, hback]
  · rename_i hneg
    rw [encode, Int64.toInt_ofInt_of_le (by omega) (by omega)]

/-- The integer of an object. -/
theorem integer_toNat (n : UInt64) :
    (.positiveInteger n : Value) = integer n.toNat := by
  rw [integer_natCast, UInt64.ofNat_toNat]

/-- A negative integer is stored as one. -/
theorem integer_toInt {n : Int64} (h : n.toInt < 0) :
    (.negativeInteger n : Value) = integer n.toInt := by
  unfold integer
  rw [if_neg (Int.not_le.2 h), Int64.ofInt_toInt]

/-- Bytes of all of several objects. -/
theorem encodeItems_wires {items : List Value}
    (h : ∀ o ∈ items, Wires toDouble true [o] (encode o)) :
    Wires toDouble true items (encodeItems items) := by
  induction items with
  | nil => exact .nil
  | cons o rest ih =>
      rw [List.forall_mem_cons] at h
      exact h.1.append (ih h.2)

/-- What is written for an object is bytes of it. -/
theorem encode_wires (toDouble : UInt32 → UInt64) {o : Value}
    (h : Sized o) : Wire toDouble o (encode o) := by
  unfold Wire
  induction o using Object.induct with
  | nil => exact .one .nil
  | boolean b =>
      cases b with
      | false => exact .one .false
      | true => exact .one .true
  | positiveInteger n =>
      have hlt := n.toNat_lt
      rw [integer_toNat, encode_integer (by omega) (by omega)]
      exact .one (scalar_packInteger (by omega) (by omega))
  | negativeInteger n =>
      have hle := Int64.le_toInt n
      have hneg : n.toInt < 0 := h
      rw [integer_toInt hneg, encode_integer (by omega) (by omega)]
      exact .one (scalar_packInteger (by omega) (by omega))
  | float n =>
      have hdouble : Scalar toDouble true
          (.float (UInt64.ofNat (beValue (store 8 n.toNat))))
          (0xcb :: store 8 n.toNat) := .double (length_store _ _)
      rw [beValue_store_natCast n.toNat_lt, UInt64.ofNat_toNat] at hdouble
      exact .one hdouble
  | str body => exact .one (.str (packStr_head h))
  | bin body => exact .one (.bin (packBin_head h))
  | ext type body =>
      obtain ⟨head, hpack, hhead⟩ := packExt_head type h
      have hext : Scalar toDouble true (.ext type.toUInt8.toInt8 body)
          (head ++ type.toUInt8 :: body) := .ext hhead
      rw [Int8.toInt8_toUInt8] at hext
      rw [encode, hpack, List.append_assoc]
      exact .one hext
  | array items ih =>
      have hitems := (Object.everyItem_iff items).1 h.2
      exact .oneArray (packArray_head h.1)
        (encodeItems_wires fun o ho => ih o ho (hitems o ho))
  | map kvs ih =>
      have hkvs := (Object.everyKv_iff kvs).1 h.2
      rw [encode, encodeKvs_eq]
      refine .oneMap (packMap_head h.1) (encodeItems_wires fun o ho => ?_)
      obtain ⟨kv, hmem, rfl | rfl⟩ := mem_inTurn.1 ho
      · exact (ih kv hmem).1 (hkvs kv hmem).1
      · exact (ih kv hmem).2 (hkvs kv hmem).2

end Objects

-- ========================================================= fewest bytes

section Shortest

variable {toDouble : UInt32 → UInt64} {bytes : List UInt8} {k n : Nat}

/-- A number of `k` bytes with a code is packed in no more. -/
theorem length_packInteger_le {d : Int}
    (hk : k = 1 ∨ k = 2 ∨ k = 4 ∨ k = 8)
    (hlo : -(2 ^ (8 * k - 1)) ≤ d) (hhi : d < 256 ^ k) :
    (packInteger d).length ≤ k + 1 := by
  unfold packInteger packRealUint64 packRealInt64
  rcases hk with rfl | rfl | rfl | rfl
  all_goals
    simp only [Nat.reduceMul, Nat.reduceSub, Int.reducePow] at hlo hhi
    split_ifs <;> simp only [List.length_cons, List.length_nil,
      length_store] <;> omega

theorem length_packInteger_fix {d : Int} (hlo : -32 ≤ d) (hhi : d < 128) :
    (packInteger d).length = 1 := by
  unfold packInteger packRealUint64 packRealInt64
  split_ifs <;> first | rfl | omega

/-- The bounds of the four sizes of integers. -/
theorem pow_bounds (hk : k = 1 ∨ k = 2 ∨ k = 4 ∨ k = 8) :
    0 < (2 : Int) ^ (8 * k - 1) ∧ (2 : Int) ^ (8 * k - 1) ≤ 2 ^ 63
      ∧ (2 : Int) ^ (8 * k - 1) ≤ 256 ^ k
      ∧ (256 : Nat) ^ k ≤ 2 ^ 64 := by
  rcases hk with rfl | rfl | rfl | rfl <;> decide

/-- A number of `k` bytes read as signed is in range. -/
theorem signed_bounds (hcode : k = 1 ∨ k = 2 ∨ k = 4 ∨ k = 8)
    (hn : n < 256 ^ k) :
    -(2 ^ (8 * k - 1)) ≤ signed k n ∧ signed k n < 2 ^ (8 * k - 1) := by
  unfold signed
  rcases hcode with rfl | rfl | rfl | rfl
  all_goals
    simp only [Nat.reduceMul, Nat.reduceSub, Nat.reducePow,
      Int.reducePow] at hn ⊢
    split <;> omega

/-- The codes stand for 1, 2, 4 and 8 bytes. -/
theorem sizes_of_codes {c : UInt8}
    (h : (k, c) ∈ uintCodes ∨ (k, c) ∈ intCodes) :
    k = 1 ∨ k = 2 ∨ k = 4 ∨ k = 8 := by
  simp only [List.mem_cons, Prod.mk.injEq, List.not_mem_nil,
    or_false] at h
  omega

/-- A packing function that has one byte for small numbers, and no more than
`k` behind a code for numbers of `k` bytes, has the shortest heads. -/
theorem Head.shortest {small base : Nat} {codes : List (Nat × UInt8)}
    {pack : Nat → List UInt8} (hfix : ∀ n < small, (pack n).length = 1)
    (hsized : ∀ e ∈ codes, ∀ n < 256 ^ e.1, (pack n).length ≤ e.1 + 1)
    (h : Head small base codes n bytes) :
    (pack n).length ≤ bytes.length := by
  cases h with
  | fix hsmall => exact Nat.le_of_eq (hfix n hsmall)
  | sized hcode hlen =>
      refine Nat.le_trans (hsized _ hcode _ ?_) ?_
      · rw [← hlen]
        exact beValue_lt _
      · rw [List.length_cons, hlen]

/-- No head for this length is shorter than the one packed. -/
theorem packStr_shortest (h : StrHead n bytes) :
    (packStr n).length ≤ bytes.length := by
  refine h.shortest ?_ ?_
  · intro n hn
    unfold packStr
    rw [if_pos hn]
    rfl
  · simp only [List.forall_mem_cons, List.not_mem_nil, Nat.reducePow]
    refine ⟨?_, ?_, ?_, nofun⟩
    all_goals
      intro n hn
      unfold packStr
      split_ifs <;> first | omega | simp

theorem packBin_shortest (h : BinHead n bytes) :
    (packBin n).length ≤ bytes.length := by
  refine h.shortest ?_ ?_
  · exact fun n hn => absurd hn (Nat.not_lt_zero n)
  · simp only [List.forall_mem_cons, List.not_mem_nil, Nat.reducePow]
    refine ⟨?_, ?_, ?_, nofun⟩
    all_goals
      intro n hn
      unfold packBin
      split_ifs <;> first | omega | simp

theorem packArray_shortest (h : ArrayHead n bytes) :
    (packArray n).length ≤ bytes.length := by
  refine h.shortest ?_ ?_
  · intro n hn
    unfold packArray
    rw [if_pos hn]
    rfl
  · simp only [List.forall_mem_cons, List.not_mem_nil, Nat.reducePow]
    refine ⟨?_, ?_, nofun⟩
    all_goals
      intro n hn
      unfold packArray
      split_ifs <;> first | omega | simp

theorem packMap_shortest (h : MapHead n bytes) :
    (packMap n).length ≤ bytes.length := by
  refine h.shortest ?_ ?_
  · intro n hn
    unfold packMap
    rw [if_pos hn]
    rfl
  · simp only [List.forall_mem_cons, List.not_mem_nil, Nat.reducePow]
    refine ⟨?_, ?_, nofun⟩
    all_goals
      intro n hn
      unfold packMap
      split_ifs <;> first | omega | simp

/-- With the type, which is not among `bytes`. -/
theorem packExt_shortest (type : Int8) (h : ExtHead n bytes) :
    (packExt n type).length ≤ bytes.length + 1 := by
  cases h with
  | fixext hcode =>
      simp only [List.mem_cons, Prod.mk.injEq, List.not_mem_nil,
        or_false] at hcode
      rcases hcode with ⟨rfl, -⟩ | ⟨rfl, -⟩ | ⟨rfl, -⟩ |
        ⟨rfl, -⟩
        | ⟨rfl, -⟩
      all_goals exact Nat.le_refl 2
  | @sized k code bytes hcode hlen hmax =>
      have hlt := beValue_lt bytes
      rw [hlen] at hlt
      rw [List.length_cons, hlen]
      simp only [List.mem_cons, Prod.mk.injEq, List.not_mem_nil,
        or_false] at hcode
      rcases hcode with ⟨rfl, -⟩ | ⟨rfl, -⟩ | ⟨rfl, -⟩
      all_goals
        unfold packExt
        split <;> try simp
        split_ifs <;> first | omega | simp

/-- An object that is a floating-point number. -/
def IsFloat : Value → Prop
  | .float _ => True
  | _ => False

/-- No bytes of an object that is not a container are fewer. -/
theorem shortest_scalar {o : Value} (h : Scalar toDouble true o bytes)
    (hfloat : ¬ IsFloat o) : (encode o).length ≤ bytes.length := by
  cases h with
  | nil => exact Nat.le_refl 1
  | false => exact Nat.le_refl 1
  | true => exact Nat.le_refl 1
  | @fixnum b hb =>
      rw [encode_integer (by omega) (by omega),
        length_packInteger_fix (by omega) (by omega)]
      exact Nat.le_refl 1
  | @negativeFixnum b hb =>
      have hlt := b.toNat_lt
      have hsigned : signed 1 b.toNat = (b.toNat : Int) - 256 := by
        unfold signed
        rw [if_neg (by omega)]
        rfl
      rw [hsigned, encode_integer (by omega) (by omega),
        length_packInteger_fix (by omega) (by omega)]
      exact Nat.le_refl 1
  | @uint k code bytes hcode hlen =>
      have hk := sizes_of_codes (.inl hcode)
      have hlt := beValue_lt bytes
      rw [hlen] at hlt
      obtain ⟨hpos, -, -, hmax⟩ := pow_bounds hk
      have hlt' : ((beValue bytes : Nat) : Int) < 256 ^ k := by
        exact_mod_cast hlt
      rw [encode_integer (by omega) (by omega), List.length_cons, hlen]
      exact length_packInteger_le hk (by omega) hlt'
  | @int k code bytes hcode hlen =>
      have hk := sizes_of_codes (.inr hcode)
      have hlt := beValue_lt bytes
      rw [hlen] at hlt
      obtain ⟨hlo, hhi⟩ := signed_bounds hk hlt
      obtain ⟨hpos, hmax, hpow, -⟩ := pow_bounds hk
      rw [encode_integer (by omega) (by omega), List.length_cons, hlen]
      exact length_packInteger_le hk hlo (by omega)
  | float hlen => exact absurd trivial hfloat
  | double hlen => exact absurd trivial hfloat
  | str hhead =>
      rw [encode, List.length_append, List.length_append]
      exact Nat.add_le_add_right (packStr_shortest hhead) _
  | bin hhead =>
      rw [encode, List.length_append, List.length_append]
      exact Nat.add_le_add_right (packBin_shortest hhead) _
  | @ext head body type hhead =>
      have hpack := packExt_shortest type.toInt8 hhead
      rw [encode, List.length_append, List.length_append, List.length_cons]
      omega
  | overflow h => cases h

/-- An integer of the format has the size of an integer. -/
theorem sized_integer {d : Int} (hlo : -(2 ^ 63) ≤ d) :
    Sized (integer d) := by
  unfold integer
  split
  · trivial
  · rename_i hneg
    show (Int64.ofInt d).toInt < 0
    rw [Int64.toInt_ofInt_of_le (by omega) (by omega)]
    omega

/-- The number of a head is one of 32 bits. -/
theorem Head.lt {small base : Nat} {codes : List (Nat × UInt8)}
    (h : Head small base codes n bytes) (hsmall : small ≤ 2 ^ 32)
    (hcodes : ∀ e ∈ codes, e.1 ≤ 4) : n < 2 ^ 32 := by
  cases h with
  | fix hn => exact Nat.lt_of_lt_of_le hn hsmall
  | @sized k code bytes hcode hlen =>
      have hlt := beValue_lt bytes
      have hpow : (256 : Nat) ^ bytes.length ≤ 256 ^ 4 :=
        Nat.pow_le_pow_right (by decide) (hlen ▸ hcodes _ hcode)
      omega

/-- A scalar of the format fits the lengths of the format. -/
theorem sized_scalar {o : Value} (h : Scalar toDouble true o bytes) :
    Sized o := by
  cases h with
  | fixnum _ => exact sized_integer (by omega)
  | @negativeFixnum b _ =>
      have hbounds := signed_bounds (k := 1) (.inl rfl) b.toNat_lt
      exact sized_integer (by omega)
  | uint _ _ => exact sized_integer (by omega)
  | @int k code bytes hcode hlen =>
      have hk := sizes_of_codes (.inr hcode)
      have hlt := beValue_lt bytes
      rw [hlen] at hlt
      have hbounds := signed_bounds hk hlt
      have hpow := pow_bounds hk
      exact sized_integer (by omega)
  | str hhead => exact hhead.lt (by decide) (by decide)
  | bin hhead => exact hhead.lt (by decide) (by decide)
  | @ext head body type hhead =>
      show body.length + 1 < 2 ^ 32
      generalize body.length = n at hhead
      cases hhead with
      | fixext hcode =>
          simp only [List.mem_cons, Prod.mk.injEq, List.not_mem_nil,
            or_false] at hcode
          omega
      | sized _ _ hmax => exact hmax
  | overflow h => cases h
  | _ => trivial

/-- Objects that have bytes are of the sizes that the format has. -/
theorem sized_wires {os : List Value} (h : Wires toDouble true os bytes) :
    ∀ o ∈ os, Sized o := by
  induction h with
  | nil => exact nofun
  | scalar ho _ ih => exact List.forall_mem_cons.2 ⟨sized_scalar ho, ih⟩
  | array hhead _ _ ihitems ih =>
      refine List.forall_mem_cons.2 ⟨⟨?_, ?_⟩, ih⟩
      · exact hhead.lt (by decide) (by decide)
      · exact (Object.everyItem_iff _).2 ihitems
  | map hhead _ _ ihkvs ih =>
      refine List.forall_mem_cons.2 ⟨⟨?_, ?_⟩, ih⟩
      · exact hhead.lt (by decide) (by decide)
      · refine (Object.everyKv_iff _).2 fun kv hkv => ⟨?_, ?_⟩
        · exact ihkvs _ (mem_inTurn.2 ⟨kv, hkv, .inl rfl⟩)
        · exact ihkvs _ (mem_inTurn.2 ⟨kv, hkv, .inr rfl⟩)

/-- No bytes of several objects are fewer than what is written for them. -/
theorem shortest_wires {os : List Value}
    (h : Wires toDouble true os bytes)
    (hfloat : ∀ o ∈ os, o.Every fun o => ¬ IsFloat o) :
    (encodeItems os).length ≤ bytes.length := by
  induction h with
  | nil => exact Nat.le_refl 0
  | @scalar o bytes os more ho hos ih =>
      rw [List.forall_mem_cons] at hfloat
      have hone : ¬ IsFloat o := by
        have hevery := hfloat.1
        cases ho with
        | float _ => exact hevery
        | double _ => exact hevery
        | overflow h => cases h
        | fixnum _ | negativeFixnum _ | uint _ _ | int _ _ =>
            unfold integer
            split <;> exact nofun
        | _ => exact nofun
      have hfirst := shortest_scalar ho hone
      have hrest := ih hfloat.2
      rw [encodeItems, List.length_append, List.length_append]
      omega
  | @array items head bytes os more hhead hitems hos ihitems ih =>
      rw [List.forall_mem_cons] at hfloat
      have hfirst := packArray_shortest hhead
      have hin := ihitems ((Object.everyItem_iff items).1 hfloat.1.2)
      have hrest := ih hfloat.2
      rw [encodeItems, encode]
      simp only [List.length_append]
      omega
  | @map kvs head bytes os more hhead hkvs hos ihkvs ih =>
      rw [List.forall_mem_cons] at hfloat
      have hfirst := packMap_shortest hhead
      have hevery := (Object.everyKv_iff kvs).1 hfloat.1.2
      have hin := ihkvs fun o ho => by
        obtain ⟨kv, hkv, rfl | rfl⟩ := mem_inTurn.1 ho
        · exact (hevery kv hkv).1
        · exact (hevery kv hkv).2
      have hrest := ih hfloat.2
      rw [encodeItems, encode, encodeKvs_eq]
      simp only [List.length_append]
      omega

/-- Bytes of an object are no fewer than what is written for it, if there
are no floating-point numbers in it. -/
theorem encode_shortest {o : Value} (h : Wire toDouble o bytes)
    (hfloat : o.Every fun o => ¬ IsFloat o) :
    Wire toDouble o (encode o) ∧ (encode o).length ≤ bytes.length := by
  refine ⟨encode_wires toDouble (sized_wires h o (List.mem_singleton_self o)),
    ?_⟩
  have hle := shortest_wires h (List.forall_mem_singleton.2 hfloat)
  rwa [encodeItems, encodeItems, List.append_nil] at hle

end Shortest

-- ================================================================= sizes

/-- The size that is grown to is enough. -/
theorem growSize_ge (w need nsize : Nat) : need ≤ growSize w need nsize := by
  induction nsize using growSize.induct w need with
  | case1 nsize hlt tmp hle =>
      rw [growSize, if_pos hlt]
      dsimp only
      rw [if_pos hle]
  | case2 nsize hlt tmp hgt ih =>
      rw [growSize, if_pos hlt]
      dsimp only
      rw [if_neg hgt]
      exact ih
  | case3 nsize hge =>
      rw [growSize, if_neg hge]
      exact Nat.not_lt.1 hge

end ProjectsLibs.Msgpack
