/-
What `template_execute` accepts is the bytes of an object.

`Reads` says of the bytes that have been read since the start of a message
that they are the bytes of what the stack holds (`Open`) followed by the
bytes of a head that is not complete (`Pending`). A step goes from bytes to
more bytes (`step_reads`), and `_finish` is only reached with the bytes of
the object (`execute_reads`).

# What has been read

A machine in the middle of an object has a stack of containers, each with
what it has so far, and perhaps a head whose number is still to come. The
bytes that were read are cut accordingly: `Open` are those of the
containers, with their heads and items, and `Pending` those behind them.
Each place of a step that pushes an object is proved to add the bytes of
this object to what is open, and a container that is full becomes an
object of the frame below.

The induction is on the run, with the bytes read so far in front. A code
stands for its number through the table of loads, so there is one lemma
for all of them (`loadStep_reads`). The extension of the greatest size is
the exception of the format: with the byte of its type the size wraps, so
the machine takes no body, and the format has a production for it.
-/
import ProjectsLibs.Msgpack.Proofs.Parse

namespace ProjectsLibs.Msgpack

open Lib

variable {β : Type} {env : Env β} {den : β → List UInt8}

-- ============================================================ what is read

/-- The bytes that have opened the containers of a stack, with what is in
them. -/
inductive Open (toDouble : UInt32 → UInt64) (den : β → List UInt8) :
    List (Frame β) → List UInt8 → Prop
  | nil : Open toDouble den [] []
  | arrayItem {stack : List (Frame β)} {pre head bytes : List UInt8}
      {count : Nat} {items : List (Object β)} :
      Open toDouble den stack pre → count ≠ 0 →
      ArrayHead (items.length + count) head →
      Wires toDouble false (items.map (Object.mapBody den)) bytes →
      Open toDouble den (.arrayItem count items :: stack)
        (pre ++ (head ++ bytes))
  | mapKey {stack : List (Frame β)} {pre head bytes : List UInt8}
      {count : Nat} {kvs : List (Object β × Object β)} :
      Open toDouble den stack pre → count ≠ 0 →
      MapHead (kvs.length + count) head →
      Wires toDouble false (inTurn (Object.mapKvs den kvs)) bytes →
      Open toDouble den (.mapKey count kvs :: stack)
        (pre ++ (head ++ bytes))
  | mapValue {stack : List (Frame β)} {pre head bytes : List UInt8}
      {count : Nat} {kvs : List (Object β × Object β)} {key : Object β} :
      Open toDouble den stack pre → count ≠ 0 →
      MapHead (kvs.length + count) head →
      Wires toDouble false
        (inTurn (Object.mapKvs den kvs) ++ [key.mapBody den]) bytes →
      Open toDouble den (.mapValue count kvs key :: stack)
        (pre ++ (head ++ bytes))

/-- The head of an object whose body has `trail` bytes, among them the type
of an extension. -/
inductive Announces : Body → Nat → List UInt8 → Prop
  | str {trail : Nat} {head : List UInt8} : StrHead trail head →
      Announces .str trail head
  | bin {trail : Nat} {head : List UInt8} : BinHead trail head →
      Announces .bin trail head
  | ext {n : Nat} {head : List UInt8} : n + 1 < 2 ^ 32 →
      ExtHead n head → Announces .ext (n + 1) head

/-- The bytes of a head that is not complete, or whose body is not. -/
inductive Pending : Control → List UInt8 → Prop
  | header : Pending .header []
  | load {cs : Load} {code : UInt8} : (cs, code) ∈ loadCodes →
      Pending (.load cs) [code]
  | body {cs : Body} {trail : Nat} {head : List UInt8} : trail ≠ 0 →
      Announces cs trail head → Pending (.body cs trail) head

/-- The bytes that have been read. -/
def Reads (toDouble : UInt32 → UInt64) (den : β → List UInt8)
    (bytes : List UInt8) (m : Machine β) : Prop :=
  ∃ pre pending, bytes = pre ++ pending ∧ Open toDouble den m.stack pre
    ∧ Pending m.control pending

/-- What a step makes of it. `rest` is what was there to read. -/
def ReadOn (toDouble : UInt32 → UInt64) (den : β → List UInt8)
    (bytes rest : List UInt8) : Machine β ⊕ Ret β × Machine β → Prop
  | .inl m => ∃ more, rest = more ++ m.rest
      ∧ Reads toDouble den (bytes ++ more) m
  | .inr (.finish obj, m) => ∃ more, rest = more ++ m.rest
      ∧ Wires toDouble false [obj.mapBody den] (bytes ++ more)
  | .inr _ => True

-- ================================================================= _push

section Push

variable {toDouble : UInt32 → UInt64} {o : Object β}
  {stack : List (Frame β)} {pre bytes : List UInt8}

/-- The bytes of an object that is pushed become those of the stack, or of
the message. -/
def PushedTo (toDouble : UInt32 → UInt64) (den : β → List UInt8)
    (bytes : List UInt8) : Pushed β → Prop
  | .finish obj => Wires toDouble false [obj.mapBody den] bytes
  | .again stack => Open toDouble den stack bytes

/-- Pushing an object onto a stack that the bytes so far stand for: it
stands for those of the object as well, and a frame that is full is taken
off as a container. -/
theorem push_reads (hopen : Open toDouble den stack pre)
    (ho : Wires toDouble false [o.mapBody den] bytes) :
    PushedTo toDouble den (pre ++ bytes) (push o stack) := by
  -- taking a frame off pushes the container onto the frame below, hence
  -- the induction on the stack
  induction hopen generalizing o bytes with
  | nil => exact ho
  | @arrayItem stack pre head body count items hopen hne hhead hbody ih =>
      have hitems : Wires toDouble false
          ((items ++ [o]).map (Object.mapBody den)) (body ++ bytes) := by
        rw [List.map_append]
        exact hbody.append ho
      rw [push, List.append_assoc, List.append_assoc]
      by_cases hlast : count - 1 = 0
      · rw [if_pos hlast]
        refine ih ?_
        have hcount : items.length + count = (items ++ [o]).length := by
          rw [List.length_append, List.length_singleton]
          omega
        rw [Object.mapBody, Object.mapItems_eq]
        refine Wires.oneArray ?_ hitems
        rw [List.length_map, ← hcount]
        exact hhead
      · rw [if_neg hlast]
        refine Open.arrayItem hopen hlast ?_ hitems
        rw [List.length_append, List.length_singleton,
          show items.length + 1 + (count - 1) = items.length + count from
            by omega]
        exact hhead
  | @mapKey stack pre head body count kvs hopen hne hhead hbody ih =>
      rw [push, List.append_assoc, List.append_assoc]
      exact Open.mapValue hopen hne hhead (hbody.append ho)
  | @mapValue stack pre head body count kvs key hopen hne hhead hbody ih =>
      have hkvs : Wires toDouble false
          (inTurn (Object.mapKvs den (kvs ++ [(key, o)]))) (body ++ bytes) := by
        have hturn : inTurn (Object.mapKvs den (kvs ++ [(key, o)]))
            = inTurn (Object.mapKvs den kvs) ++ [key.mapBody den]
              ++ [o.mapBody den] := by
          rw [Object.mapKvs_eq, Object.mapKvs_eq, List.map_append]
          unfold inTurn
          rw [List.flatMap_append, List.append_assoc]
          rfl
        rw [hturn]
        exact hbody.append ho
      rw [push, List.append_assoc, List.append_assoc]
      by_cases hlast : count - 1 = 0
      · rw [if_pos hlast]
        refine ih ?_
        have hcount : kvs.length + count = (kvs ++ [(key, o)]).length := by
          rw [List.length_append, List.length_singleton]
          omega
        rw [Object.mapBody]
        refine Wires.oneMap ?_ hkvs
        rw [Object.mapKvs_eq, List.length_map, ← hcount]
        exact hhead
      · rw [if_neg hlast]
        refine Open.mapKey hopen hlast ?_ hkvs
        rw [List.length_append, List.length_singleton,
          show kvs.length + 1 + (count - 1) = kvs.length + count from
            by omega]
        exact hhead

/-- `_push` with `p` at the last of the bytes that are read. -/
theorem pushValue_reads {m : Machine β} {rest more : List UInt8}
    (hopen : Open toDouble den m.stack pre)
    (hrest : rest = more ++ m.rest.drop 1)
    (ho : Wires toDouble false [o.mapBody den] (bytes ++ more)) :
    ReadOn toDouble den (pre ++ bytes) rest (pushValue o m) := by
  have hpush := push_reads hopen ho
  rw [← List.append_assoc] at hpush
  unfold pushValue
  cases hp : push o m.stack with
  | finish obj =>
      rw [hp] at hpush
      exact ⟨more, hrest, hpush⟩
  | again stack =>
      rw [hp] at hpush
      exact ⟨more, hrest, _, [], (List.append_nil _).symm, hpush, .header⟩

end Push

-- ====================================================== bodies and heads

section Bodies

variable {m : Machine β} {pre bytes more rest : List UInt8}

/-- The head and the body of an object. -/
theorem Announces.scalar {cs : Body} {trail : Nat} {head : List UInt8}
    (h : Announces cs trail head) (hden : env.Denotes den) (n : Nat)
    (hle : trail ≤ rest.length) :
    Scalar env.toDouble false
      ((bodyObject env cs n trail rest).mapBody den)
      (head ++ rest.take trail) := by
  have hlen : (rest.take trail).length = trail :=
    List.length_take_of_le hle
  cases h with
  | str hhead =>
      show Scalar _ _ (.str (den _)) _
      rw [hden _ _ _ hle]
      exact .str (hlen.symm ▸ hhead)
  | bin hhead =>
      show Scalar _ _ (.bin (den _)) _
      rw [hden _ _ _ hle]
      exact .bin (hlen.symm ▸ hhead)
  | @ext k _ hk hhead =>
      cases rest with
      | nil => exact absurd hle (Nat.not_succ_le_zero k)
      | cons type rest =>
          have hle : k ≤ rest.length := Nat.le_of_succ_le_succ hle
          have hsize : (k + 1 + 2 ^ 32 - 1) % 2 ^ 32 = k := by omega
          show Scalar _ _ (.ext type.toInt8 (den _)) _
          rw [hsize, List.drop_one, List.tail_cons, hden _ _ _ hle,
            List.take_succ_cons]
          refine .ext ?_
          rwa [List.length_take_of_le hle]

/-- `push_variable_value`, with `p` at the last byte of the body. -/
theorem pushBody_reads {cs : Body} {trail : Nat} {head : List UInt8}
    (hden : env.Denotes den) (h : Announces cs trail head) (n : Nat)
    (hle : trail ≤ rest.length)
    (hopen : Open env.toDouble den m.stack pre)
    (hrest : m.rest.drop 1 = rest.drop trail) :
    ReadOn env.toDouble den (pre ++ head) rest
      (pushBody env cs n trail rest m) := by
  have hmore : rest = rest.take trail ++ m.rest.drop 1 := by
    rw [hrest, List.take_append_drop]
  exact pushValue_reads (m := { m with referenced := true }) hopen hmore
    (.one (h.scalar hden n hle))

/-- `again_fixed_trail_if_zero`, with `p` at the last byte of the head. -/
theorem againIfZero_reads {cs : Body} {trail : Nat}
    (hden : env.Denotes den) (h : Announces cs trail (bytes ++ more))
    (n : Nat) (bytes' : List UInt8)
    (hopen : Open env.toDouble den m.stack pre)
    (hrest : rest = more ++ m.rest.drop 1) :
    ReadOn env.toDouble den (pre ++ bytes) rest
      (againIfZero env cs trail n bytes' m) := by
  unfold againIfZero
  by_cases hzero : trail = 0
  · subst hzero
    rw [if_pos rfl]
    have hscalar := h.scalar hden n (Nat.zero_le bytes'.length)
    rw [List.take_zero, List.append_nil] at hscalar
    exact pushValue_reads (m := { m with referenced := true }) hopen hrest
      (.one hscalar)
  · rw [if_neg hzero]
    refine ⟨more, hrest, pre, bytes ++ more, ?_, hopen, .body hzero h⟩
    rw [List.append_assoc]

/-- `start_container`, with `p` at the last byte of the head. -/
theorem startContainer_reads (ct : ContainerType) {count : Nat}
    (h : ct.Head count (bytes ++ more))
    (hopen : Open env.toDouble den m.stack pre)
    (hrest : rest = more ++ m.rest.drop 1) :
    ReadOn env.toDouble den (pre ++ bytes) rest
      (startContainer env ct count m) := by
  unfold startContainer
  by_cases hfull : msgpackEmbedStackSize ≤ m.stack.length
  · rw [if_pos hfull]
    trivial
  · rw [if_neg hfull]
    dsimp only
    split
    · trivial
    · by_cases hzero : count = 0
      · subst hzero
        rw [if_pos rfl]
        refine pushValue_reads (m := { m with allocs := m.allocs + 1 })
          hopen hrest ?_
        cases ct with
        | array =>
            have hone : Wires env.toDouble false [.array []]
                (bytes ++ more ++ []) := .oneArray h .nil
            rwa [List.append_nil] at hone
        | map =>
            have hone : Wires env.toDouble false [.map []]
                (bytes ++ more ++ []) := .oneMap h .nil
            rwa [List.append_nil] at hone
      · rw [if_neg hzero]
        refine ⟨more, hrest, pre ++ (bytes ++ more), [], ?_, ?_, .header⟩
        · rw [List.append_nil, List.append_assoc]
        · have hhead : pre ++ (bytes ++ more)
              = pre ++ ((bytes ++ more) ++ []) := by rw [List.append_nil]
          rw [hhead]
          cases ct with
          | array =>
              refine Open.arrayItem hopen hzero ?_ .nil
              rw [List.length_nil, Nat.zero_add]
              exact h
          | map =>
              refine Open.mapKey hopen hzero ?_ .nil
              rw [List.length_nil, Nat.zero_add]
              exact h

end Bodies

-- ================================================================ steps

section Steps

variable {m : Machine β} {pre : List UInt8}

theorem and_five_bits (n : Nat) : n &&& 0x1f = n % 32 :=
  Nat.and_two_pow_sub_one_eq_mod n 5

theorem and_four_bits (n : Nat) : n &&& 0x0f = n % 16 :=
  Nat.and_two_pow_sub_one_eq_mod n 4

/-- A byte that is a head with a small number. -/
theorem head_of_byte {small base n : Nat} {codes : List (Nat × UInt8)}
    {b : UInt8} (hsmall : n < small) (hb : b.toNat = base + n) :
    Head small base codes n [b] := by
  have hbyte : b = UInt8.ofNat (base + n) := by
    rw [← hb, UInt8.ofNat_toNat]
  rw [hbyte]
  exact .fix hsmall

/-- The codes of the extensions with a fixed length. -/
theorem fixext_of_byte {b : UInt8} (hlo : 0xd4 ≤ b.toNat)
    (hhi : b.toNat ≤ 0xd7) : ExtHead (1 <<< (b.toNat &&& 3)) [b] := by
  have hb : b = UInt8.ofNat b.toNat := (UInt8.ofNat_toNat).symm
  rw [hb]
  obtain h | h | h | h : b.toNat = 0xd4 ∨ b.toNat = 0xd5 ∨ b.toNat = 0xd6
      ∨ b.toNat = 0xd7 := by omega
  all_goals
    rw [h]
    exact .fixext (by decide)

/-- The states that a header byte leads to have it as their code. -/
theorem mem_loadCodes_of_next {b : UInt8} {cs : Load}
    (hlo : 0xc4 ≤ b.toNat) (hhi : b.toNat < 0xe0)
    (h : nextCs b.toNat = some cs) (hfix : b.toNat < 0xd4 ∨ 0xd8 < b.toNat) :
    (cs, b) ∈ loadCodes := by
  have hall : ∀ n ∈ List.range' 0xc4 28, n < 0xd4 ∨ 0xd8 < n →
      ∀ cs ∈ nextCs n, (cs, UInt8.ofNat n) ∈ loadCodes := by decide
  have hmem : b.toNat ∈ List.range' 0xc4 28 :=
    List.mem_range'_1.2 ⟨hlo, by omega⟩
  have hcode := hall b.toNat hmem hfix cs h
  rwa [UInt8.ofNat_toNat] at hcode

/-- A header byte. -/
theorem headerStep_reads {b : UInt8} {tail : List UInt8}
    (hden : env.Denotes den) (hopen : Open env.toDouble den m.stack pre)
    (hrest : m.rest = b :: tail) :
    ReadOn env.toDouble den pre m.rest (headerStep env b m) := by
  have hdrop : m.rest = [b] ++ m.rest.drop 1 := by
    rw [hrest]
    rfl
  have hpre : pre = pre ++ [] := (List.append_nil pre).symm
  have hlt := b.toNat_lt
  rw [hpre]
  -- An object that is the byte, the head of a body or of a container.
  have hobj : ∀ o : Object β,
      Scalar env.toDouble false (o.mapBody den) [b] →
      ReadOn env.toDouble den (pre ++ []) m.rest (pushValue o m) :=
    fun o ho => pushValue_reads hopen hdrop (.one ho)
  have hbody : ∀ cs trail, Announces cs trail [b] →
      ReadOn env.toDouble den (pre ++ []) m.rest
        (againIfZero env cs trail m.pos m.rest m) :=
    fun cs trail h => againIfZero_reads hden h _ _ hopen hdrop
  have hct : ∀ ct count, ContainerType.Head ct count [b] →
      ReadOn env.toDouble den (pre ++ []) m.rest
        (startContainer env ct count m) :=
    fun ct count h => startContainer_reads ct h hopen hdrop
  have hb : ∀ k, b.toNat = k → b = UInt8.ofNat k := by
    rintro k rfl
    exact UInt8.ofNat_toNat.symm
  unfold headerStep
  dsimp only
  by_cases h₁ : b.toNat ≤ 0x7f
  · rw [if_pos h₁]
    refine hobj _ ?_
    have hfix : Scalar env.toDouble false (integer b.toNat) [b] :=
      .fixnum (by omega)
    rwa [integer_natCast] at hfix
  rw [if_neg h₁]
  by_cases h₂ : 0xe0 ≤ b.toNat
  · rw [if_pos h₂]
    refine hobj _ ?_
    rw [mapBody_callbackInt]
    exact .negativeFixnum h₂
  rw [if_neg h₂]
  by_cases h₃ : 0xc0 ≤ b.toNat
  · rw [if_pos h₃]
    by_cases hnil : b.toNat = 0xc0
    · rw [if_pos hnil]
      exact hobj _ (hb _ hnil ▸ .nil)
    rw [if_neg hnil]
    by_cases hfalse : b.toNat = 0xc2
    · rw [if_pos hfalse]
      exact hobj _ (hb _ hfalse ▸ .false)
    rw [if_neg hfalse]
    by_cases htrue : b.toNat = 0xc3
    · rw [if_pos htrue]
      exact hobj _ (hb _ htrue ▸ .true)
    rw [if_neg htrue]
    by_cases hfix : 0xd4 ≤ b.toNat ∧ b.toNat ≤ 0xd7
    · rw [if_pos hfix]
      refine hbody _ _ (.ext ?_ (fixext_of_byte hfix.1 hfix.2))
      have hand : b.toNat &&& 3 ≤ 3 := Nat.and_le_right
      have hshift : 1 <<< (b.toNat &&& 3) ≤ 1 <<< 3 := by
        rw [Nat.one_shiftLeft, Nat.one_shiftLeft]
        exact Nat.pow_le_pow_right (by decide) hand
      have : 1 <<< 3 = 8 := rfl
      omega
    rw [if_neg hfix]
    by_cases hsix : b.toNat = 0xd8
    · rw [if_pos hsix]
      refine hbody _ _ (.ext (by decide) ?_)
      rw [hb _ hsix]
      exact .fixext (by decide)
    rw [if_neg hsix]
    cases hcs : nextCs b.toNat with
    | none => trivial
    | some cs =>
        have hlow : 0xc4 ≤ b.toNat := by
          by_contra hlow
          have hone : b.toNat = 0xc1 := by omega
          rw [hone] at hcs
          cases hcs
        refine ⟨[b], hdrop, pre, [b], ?_, hopen, .load
          (mem_loadCodes_of_next hlow (by omega) hcs (by omega))⟩
        rw [List.append_nil]
  rw [if_neg h₃]
  by_cases h₄ : 0xa0 ≤ b.toNat
  · rw [if_pos h₄]
    have hand := and_five_bits b.toNat
    exact hbody _ _ (.str (head_of_byte (by omega) (by omega)))
  rw [if_neg h₄]
  by_cases h₅ : 0x90 ≤ b.toNat
  · rw [if_pos h₅]
    have hand := and_four_bits b.toNat
    exact hct .array _ (head_of_byte (by omega) (by omega))
  rw [if_neg h₅]
  have hand := and_four_bits b.toNat
  exact hct .map _ (head_of_byte (by omega) (by omega))

/-- The only length that is not less than itself with the type is the
greatest of 32 bits. -/
theorem greatest_length {k : Nat} {code : UInt8} {bytes : List UInt8}
    (hk : (k, code) ∈ [(1, (0xc7 : UInt8)), (2, 0xc8), (4, 0xc9)])
    (hlen : bytes.length = k) (hmax : ¬ beValue bytes + 1 < 2 ^ 32) :
    k = 4 ∧ code = 0xc9 ∧ bytes = [0xff, 0xff, 0xff, 0xff] := by
  have hlt := beValue_lt bytes
  simp only [List.mem_cons, Prod.mk.injEq, List.not_mem_nil,
    or_false] at hk
  rcases hk with ⟨rfl, rfl⟩ | ⟨rfl, rfl⟩ | ⟨rfl, rfl⟩
  · rw [hlen] at hlt
    omega
  · rw [hlen] at hlt
    omega
  · rw [hlen] at hlt
    refine ⟨rfl, rfl, ?_⟩
    rw [← beBytes_beValue bytes, hlen,
      show beValue bytes = 2 ^ 32 - 1 by omega]
    decide

/-- A code whose number has been read. -/
theorem loadStep_reads {cs : Load} {code : UInt8}
    (hcode : (cs, code) ∈ loadCodes) (hden : env.Denotes den)
    (hopen : Open env.toDouble den m.stack pre)
    (hle : cs.trail ≤ m.rest.length) :
    ReadOn env.toDouble den (pre ++ [code]) m.rest
      (loadStep env cs (beValue (m.rest.take cs.trail)) m.pos m.rest
        (m.advance (cs.trail - 1))) := by
  have hpos : 0 < cs.trail := (loadCodes_next _ hcode).2.2.2.2
  have hlen : (m.rest.take cs.trail).length = cs.trail :=
    List.length_take_of_le hle
  have hrest : m.rest
      = m.rest.take cs.trail ++ (m.advance (cs.trail - 1)).rest.drop 1 := by
    show _ = _ ++ (m.rest.drop (cs.trail - 1)).drop 1
    rw [List.drop_drop, Nat.sub_add_cancel hpos, List.take_append_drop]
  cases cs with
  | float =>
      obtain rfl : code = 0xca := by simpa [loadCodes] using hcode
      exact pushValue_reads hopen hrest (.one (.float hlen))
  | double =>
      obtain rfl : code = 0xcb := by simpa [loadCodes] using hcode
      exact pushValue_reads hopen hrest (.one (.double hlen))
  | uint k =>
      have huint : Scalar env.toDouble false
          (integer (beValue (m.rest.take k))) (code :: m.rest.take k) :=
        .uint (mem_loadCodes_uint.1 hcode) hlen
      rw [integer_natCast] at huint
      exact pushValue_reads hopen hrest (.one huint)
  | int k =>
      refine pushValue_reads hopen hrest (.one ?_)
      rw [mapBody_callbackInt]
      exact .int (mem_loadCodes_int.1 hcode) hlen
  | str k =>
      exact againIfZero_reads hden
        (.str (.sized (mem_loadCodes_str.1 hcode) hlen)) _ _ hopen hrest
  | bin k =>
      exact againIfZero_reads hden
        (.bin (.sized (mem_loadCodes_bin.1 hcode) hlen)) _ _ hopen hrest
  | ext k =>
      have hk := mem_loadCodes_ext.1 hcode
      change (m.rest.take k).length = k at hlen
      change m.rest = m.rest.take k ++ (m.advance (k - 1)).rest.drop 1
        at hrest
      show ReadOn _ _ _ _ (againIfZero env .ext
        ((beValue (m.rest.take k) + 1) % 2 ^ 32) m.pos m.rest
        (m.advance (k - 1)))
      by_cases hmax : beValue (m.rest.take k) + 1 < 2 ^ 32
      · rw [Nat.mod_eq_of_lt hmax]
        exact againIfZero_reads hden (.ext hmax (.sized hk hlen hmax)) _ _
          hopen hrest
      · -- The length with the type is `0` again, and the body is taken to
        -- begin where the length does.
        obtain ⟨rfl, rfl, hmost⟩ := greatest_length hk hlen hmax
        have hvalue : (beValue (m.rest.take 4) + 1) % 2 ^ 32 = 0 := by
          rw [hmost]
          rfl
        have htype : m.rest.headD 0 = 0xff := by
          have hhead : (m.rest.take 4).headD 0 = m.rest.headD 0 := by
            cases m.rest with
            | nil => rfl
            | cons b tail => rfl
          rw [← hhead, hmost]
          rfl
        have hobj : (bodyObject env .ext m.pos 0 m.rest).mapBody den
            = .ext (-1) (den (env.body (m.pos + 1) (2 ^ 32 - 1)
              (m.rest.drop 1))) := by
          unfold bodyObject
          dsimp only
          rw [htype, Object.mapBody]
          rfl
        unfold againIfZero
        rw [hvalue, if_pos rfl]
        refine pushValue_reads
          (m := { m.advance 3 with referenced := true }) hopen hrest
          (.one ?_)
        rw [hobj, hmost]
        exact .overflow rfl
  | array k =>
      exact startContainer_reads .array
        (.sized (mem_loadCodes_array.1 hcode) hlen) hopen hrest
  | map k =>
      exact startContainer_reads .map
        (.sized (mem_loadCodes_map.1 hcode) hlen) hopen hrest

/-- What a step does to the bytes that have been read. -/
theorem step_reads {bytes : List UInt8} (hden : env.Denotes den)
    (h : Reads env.toDouble den bytes m) :
    ReadOn env.toDouble den bytes m.rest (step env m) := by
  obtain ⟨pre, pending, rfl, hopen, hpending⟩ := h
  unfold step
  cases hrest : m.rest with
  | nil => trivial
  | cons b tail =>
      dsimp only
      rw [← hrest]
      cases hctl : m.control with
      | header =>
          rw [hctl] at hpending
          cases hpending
          dsimp only
          rw [List.append_nil]
          exact headerStep_reads hden hopen hrest
      | load cs =>
          rw [hctl] at hpending
          cases hpending with
          | load hcode =>
              dsimp only
              split
              · trivial
              · exact loadStep_reads hcode hden hopen (by omega)
      | body cs trail =>
          rw [hctl] at hpending
          cases hpending with
          | body hne hhead =>
              dsimp only
              split
              · trivial
              · refine pushBody_reads hden hhead m.pos (by omega)
                  (m := m.advance (trail - 1)) hopen ?_
                show (m.rest.drop (trail - 1)).drop 1 = _
                rw [List.drop_drop, Nat.sub_add_cancel (by omega)]

/-- A run that comes to `_finish` has read the bytes of the object. -/
theorem execute_reads {bytes : List UInt8} {obj : Object β}
    {m' : Machine β} (hden : env.Denotes den)
    (h : Reads env.toDouble den bytes m)
    (hrun : templateExecute env m = (.finish obj, m')) :
    ∃ more, m.rest = more ++ m'.rest
      ∧ Wires env.toDouble false [obj.mapBody den] (bytes ++ more) := by
  refine outcome_invariant (step_measured env)
    (I := fun m₁ => ∃ more, m.rest = more ++ m₁.rest
      ∧ Reads env.toDouble den (bytes ++ more) m₁)
    (P := fun r => ∀ obj m', r = (.finish obj, m') →
      ∃ more, m.rest = more ++ m'.rest
        ∧ Wires env.toDouble false [obj.mapBody den] (bytes ++ more))
    ?_ ?_ (s := m) ?_ obj m' hrun
  · rintro m₁ m₂ ⟨more, hrest, hreads⟩ hstep
    have hon := step_reads hden hreads
    rw [hstep] at hon
    obtain ⟨more', hrest', hreads'⟩ := hon
    rw [List.append_assoc] at hreads'
    exact ⟨more ++ more', by rw [hrest, hrest', List.append_assoc], hreads'⟩
  · rintro m₁ r ⟨more, hrest, hreads⟩ hstep obj m' rfl
    have hon := step_reads hden hreads
    rw [hstep] at hon
    obtain ⟨more', hrest', hwires⟩ := hon
    rw [List.append_assoc] at hwires
    exact ⟨more ++ more', by rw [hrest, hrest', List.append_assoc], hwires⟩
  · exact ⟨[], rfl, by rwa [List.append_nil]⟩

end Steps

end ProjectsLibs.Msgpack
