/-
The bytes of objects make `template_execute` push these objects.

`Landed` is what a run comes to: all of the bytes are behind `p`, and the
objects, with bodies that stand for the right bytes, have been pushed to the
stack that was there (`execute_wires`). An object that is nested too deep
ends the run instead (`execute_deep`).

# The induction

The machine has a stack of containers, and an object inside of one is
pushed to its frame. The induction is on the derivation of the bytes, and
its statement is about a run from any state at a header (`Parses`): over
the bytes of some objects the run goes on to what is behind them with
these objects pushed. A container is a head, which starts a frame, then
its items, which are pushed to this frame in as many rounds, and the last
of them ends the container and pushes it to the frame below.

The bytes of a head are looked at once for all codes with a number behind
them (`loadCodes`): the machine waits for as many bytes, loads the number
and is at the case for the code. For objects that are nested too deep the
statement is that the run fails, whatever the frames hold, if there is
room in them for the objects (`RoomFor`).
-/
import ProjectsLibs.Msgpack.Proofs.Unpack

namespace ProjectsLibs.Msgpack

open Lib

variable {β : Type} {env : Env β} {den : β → List UInt8}

/-- A body stands for the bytes that are there. -/
def Env.Denotes (env : Env β) (den : β → List UInt8) : Prop :=
  ∀ p n bytes, n ≤ bytes.length → den (env.body p n bytes) = bytes.take n

/-- The zone has the memory that it is asked for. -/
def Env.Grants (env : Env β) : Prop := ∀ k n, env.zoneMalloc k n = true

/-- The run from `m` has come past `bytes`, to what is behind them, and has
pushed `ws`. -/
def Landed (env : Env β) (m : Machine β) (bytes post : List UInt8)
    (ws : List (Object β)) : Prop :=
  ∃ m', m'.pos = m.pos + bytes.length ∧ m'.rest = post
    ∧ templateExecute env m = resume env (land m' (pushes ws m.stack))

-- ============================================================= one body

section Body

variable {m : Machine β} {post body : List UInt8}

/-- `goto _push` with `p` at the last byte of `bytes`. -/
theorem landed_pushValue {m₀ m : Machine β} {bytes : List UInt8}
    {o : Object β}
    (hrun : templateExecute env m₀ = resume env (pushValue o m))
    (hstack : m.stack = m₀.stack)
    (hpos : m.pos + 1 = m₀.pos + bytes.length)
    (hrest : m.rest.drop 1 = post) : Landed env m₀ bytes post [o] := by
  refine ⟨m.advance 1, hpos, hrest, ?_⟩
  rw [hrun, pushes_one, ← hstack]
  rfl

/-- The bytes of a body, and the object that is pushed. -/
theorem resume_againIfZero (env : Env β) (cs : Body) (n : Nat)
    (bytes : List UInt8) {x : UInt8} (hrest : m.rest = x :: (body ++ post)) :
    ∃ n' bytes' m', m'.stack = m.stack
      ∧ m'.pos + 1 = m.pos + 1 + body.length ∧ m'.rest.drop 1 = post
      ∧ (body ≠ [] → n' = m.pos + 1 ∧ bytes' = body ++ post)
      ∧ resume env (againIfZero env cs body.length n bytes m)
        = resume env
          (pushValue (bodyObject env cs n' body.length bytes') m') := by
  unfold againIfZero
  by_cases hzero : body.length = 0
  · have hnil := List.length_eq_zero_iff.1 hzero
    rw [if_pos hzero, hzero]
    refine ⟨n, bytes, { m with referenced := true }, rfl, ?_, ?_, ?_, rfl⟩
    · rfl
    · show m.rest.drop 1 = post
      rw [hrest, hnil]
      rfl
    · intro hne
      exact absurd hnil hne
  · rw [if_neg hzero]
    let m₁ : Machine β :=
      { m.advance 1 with control := .body cs body.length }
    have hrest₁ : m₁.rest = body ++ post := by
      show m.rest.drop 1 = _
      rw [hrest]
      rfl
    have hpos : 0 < body.length := Nat.pos_of_ne_zero hzero
    have hstep : step env m₁ = pushBody env cs m₁.pos body.length
        (body ++ post) (m₁.advance (body.length - 1)) := by
      unfold step
      rw [hrest₁]
      cases hb : body ++ post with
      | nil =>
          rw [List.append_eq_nil_iff] at hb
          rw [hb.1] at hzero
          exact absurd rfl hzero
      | cons y tail =>
          dsimp only
          rw [← hb]
          show (if _ then _ else _) = _
          rw [if_neg (by rw [List.length_append]; omega)]
    refine ⟨m₁.pos, body ++ post, { m₁.advance (body.length - 1) with
      referenced := true }, rfl, ?_, ?_, fun _ => ⟨rfl, rfl⟩, ?_⟩
    · show m.pos + 1 + (body.length - 1) + 1 = _
      omega
    · show ((m₁.rest.drop (body.length - 1)).drop 1) = post
      rw [hrest₁, List.drop_drop,
        show body.length - 1 + 1 = body.length from by omega,
        List.drop_left]
    · show templateExecute env m₁ = _
      rw [execute_eq, hstep]
      rfl

/-- A run that has come to the last byte of a head, and reads the body. -/
theorem landed_body (cs : Body) {m₀ : Machine β} {head : List UInt8}
    {n : Nat} {bytes : List UInt8} {x : UInt8}
    (hden : env.Denotes den) (hcs : cs ≠ .ext)
    (hrun : templateExecute env m₀
      = resume env (againIfZero env cs body.length n bytes m))
    (hstack : m.stack = m₀.stack) (hpos : m.pos + 1 = m₀.pos + head.length)
    (hrest : m.rest = x :: (body ++ post)) :
    ∃ w, den w = body
      ∧ Landed env m₀ (head ++ body) post
        [if cs = .str then .str w else .bin w] := by
  obtain ⟨n', bytes', m', hstack', hpos', hrest', hbytes, hres⟩ :=
    resume_againIfZero env cs n bytes hrest
  refine ⟨env.body n' body.length bytes', ?_, ?_⟩
  · by_cases hne : body = []
    · subst hne
      exact hden n' 0 bytes' (Nat.zero_le _)
    · obtain ⟨-, rfl⟩ := hbytes hne
      rw [hden _ _ _ (by rw [List.length_append]; omega), List.take_left]
  · have hobj : bodyObject env cs n' body.length bytes'
        = if cs = .str then .str (env.body n' body.length bytes')
          else .bin (env.body n' body.length bytes') := by
      cases cs with
      | str => rfl
      | bin => rfl
      | ext => exact absurd rfl hcs
    rw [← hobj]
    refine landed_pushValue (hrun.trans hres) (hstack'.trans hstack) ?_
      hrest'
    rw [List.length_append]
    omega

/-- The same for an extension, whose type stands before the body. -/
theorem landed_ext {m₀ : Machine β} {head : List UInt8} {type : UInt8}
    {n : Nat} {bytes : List UInt8} {x : UInt8}
    (hden : env.Denotes den) (hlen : body.length + 1 < 2 ^ 32)
    (hrun : templateExecute env m₀
      = resume env (againIfZero env .ext (body.length + 1) n bytes m))
    (hstack : m.stack = m₀.stack) (hpos : m.pos + 1 = m₀.pos + head.length)
    (hrest : m.rest = x :: (type :: body ++ post)) :
    ∃ w, den w = body
      ∧ Landed env m₀ (head ++ type :: body) post
        [.ext type.toInt8 w] := by
  have hrest : m.rest = x :: ((type :: body) ++ post) := hrest
  obtain ⟨n', bytes', m', hstack', hpos', hrest', hbytes, hres⟩ :=
    resume_againIfZero env .ext n bytes hrest
  obtain ⟨rfl, rfl⟩ := hbytes (List.cons_ne_nil _ _)
  have hsize : ((type :: body).length + 2 ^ 32 - 1) % 2 ^ 32
      = body.length := by
    rw [List.length_cons]
    omega
  refine ⟨env.body (m.pos + 1 + 1) body.length (body ++ post), ?_, ?_⟩
  · rw [hden _ _ _ (by rw [List.length_append]; omega), List.take_left]
  · have hobj : bodyObject env .ext (m.pos + 1) (type :: body).length
        (type :: body ++ post)
        = .ext type.toInt8
          (env.body (m.pos + 1 + 1) body.length (body ++ post)) := by
      unfold bodyObject
      dsimp only
      rw [hsize]
      rfl
    rw [← hobj]
    refine landed_pushValue (hrun.trans hres) (hstack'.trans hstack) ?_
      hrest'
    rw [List.length_append]
    omega

end Body

-- ============================================================ the header

section Header

variable {m : Machine β} {b : UInt8} {tail : List UInt8}

/-- The first step at a header byte. -/
theorem execute_header (hctl : m.control = .header)
    (hrest : m.rest = b :: tail) :
    templateExecute env m = resume env (headerStep env b m) := by
  rw [execute_eq]
  unfold step
  rw [hrest]
  dsimp only
  rw [hctl]

/-- A header byte that says which number follows. -/
theorem headerStep_load {cs : Load} (hlo : 0xc4 ≤ b.toNat)
    (hhi : b.toNat < 0xe0) (hfix : b.toNat < 0xd4 ∨ 0xd8 < b.toNat)
    (hcs : nextCs b.toNat = some cs) :
    headerStep env b m
      = .inl { m.advance 1 with control := .load cs } := by
  unfold headerStep
  dsimp only
  rw [if_neg (by omega), if_neg (by omega), if_pos (by omega),
    if_neg (by omega), if_neg (by omega), if_neg (by omega),
    if_neg (by omega), if_neg (by omega), hcs]

/-- The codes of the states that read a number. -/
def loadCodes : List (Load × UInt8) :=
  [(.bin 1, 0xc4), (.bin 2, 0xc5), (.bin 4, 0xc6), (.ext 1, 0xc7),
    (.ext 2, 0xc8), (.ext 4, 0xc9), (.float, 0xca), (.double, 0xcb),
    (.uint 1, 0xcc), (.uint 2, 0xcd), (.uint 4, 0xce), (.uint 8, 0xcf),
    (.int 1, 0xd0), (.int 2, 0xd1), (.int 4, 0xd2), (.int 8, 0xd3),
    (.str 1, 0xd9), (.str 2, 0xda), (.str 4, 0xdb), (.array 2, 0xdc),
    (.array 4, 0xdd), (.map 2, 0xde), (.map 4, 0xdf)]

/-- For each code with a length or a value behind it, the parser waits for
as many bytes. -/
theorem loadCodes_next : ∀ e ∈ loadCodes, 0xc4 ≤ e.2.toNat
    ∧ e.2.toNat < 0xe0 ∧ (e.2.toNat < 0xd4 ∨ 0xd8 < e.2.toNat)
    ∧ nextCs e.2.toNat = some e.1 ∧ 0 < e.1.trail := by
  decide

section Codes

variable {k : Nat} {code : UInt8}

theorem mem_loadCodes_bin : (Load.bin k, code) ∈ loadCodes
    ↔ (k, code) ∈ [(1, (0xc4 : UInt8)), (2, 0xc5), (4, 0xc6)] := by
  simp [loadCodes]

theorem mem_loadCodes_ext : (Load.ext k, code) ∈ loadCodes
    ↔ (k, code) ∈ [(1, (0xc7 : UInt8)), (2, 0xc8), (4, 0xc9)] := by
  simp [loadCodes]

theorem mem_loadCodes_uint :
    (Load.uint k, code) ∈ loadCodes ↔ (k, code) ∈ uintCodes := by
  simp [loadCodes]

theorem mem_loadCodes_int :
    (Load.int k, code) ∈ loadCodes ↔ (k, code) ∈ intCodes := by
  simp [loadCodes]

theorem mem_loadCodes_str : (Load.str k, code) ∈ loadCodes
    ↔ (k, code) ∈ [(1, (0xd9 : UInt8)), (2, 0xda), (4, 0xdb)] := by
  simp [loadCodes]

theorem mem_loadCodes_array : (Load.array k, code) ∈ loadCodes
    ↔ (k, code) ∈ [(2, (0xdc : UInt8)), (4, 0xdd)] := by
  simp [loadCodes]

theorem mem_loadCodes_map : (Load.map k, code) ∈ loadCodes
    ↔ (k, code) ∈ [(2, (0xde : UInt8)), (4, 0xdf)] := by
  simp [loadCodes]

end Codes

/-- A code and its number: the case of the number is reached, with `p` at
its last byte. -/
theorem execute_load {cs : Load} {code : UInt8} {bytes post : List UInt8}
    (hcode : (cs, code) ∈ loadCodes) (hlen : bytes.length = cs.trail)
    (hctl : m.control = .header) (hrest : m.rest = code :: (bytes ++ post)) :
    ∃ x m', m'.stack = m.stack
      ∧ m'.pos + 1 = m.pos + (code :: bytes).length
      ∧ m'.rest = x :: post
      ∧ templateExecute env m = resume env
        (loadStep env cs (beValue bytes) (m.pos + 1) (bytes ++ post) m') := by
  obtain ⟨hlo, hhi, hfix, hcs, hpos⟩ := loadCodes_next (cs, code) hcode
  dsimp only at hlo hhi hfix hcs hpos
  let m₁ : Machine β := { m.advance 1 with control := .load cs }
  have hrest₁ : m₁.rest = bytes ++ post := by
    show m.rest.drop 1 = _
    rw [hrest]
    rfl
  have hstep : step env m₁ = loadStep env cs (beValue bytes) m₁.pos
      (bytes ++ post) (m₁.advance (cs.trail - 1)) := by
    unfold step
    rw [hrest₁]
    cases hb : bytes ++ post with
    | nil =>
        rw [List.append_eq_nil_iff] at hb
        rw [hb.1] at hlen
        rw [← hlen] at hpos
        exact absurd hpos (Nat.lt_irrefl 0)
    | cons y tail =>
        dsimp only
        rw [← hb]
        show (if _ then _ else _) = _
        rw [if_neg (by rw [List.length_append]; omega), ← hlen,
          List.take_left]
  obtain ⟨x, hx⟩ : ∃ x, bytes.drop (cs.trail - 1) = [x] := by
    have hone : (bytes.drop (cs.trail - 1)).length = 1 := by
      rw [List.length_drop]
      omega
    exact List.length_eq_one_iff.1 hone
  refine ⟨x, m₁.advance (cs.trail - 1), rfl, ?_, ?_, ?_⟩
  · show m.pos + 1 + (cs.trail - 1) + 1 = _
    rw [List.length_cons]
    omega
  · show m₁.rest.drop (cs.trail - 1) = _
    rw [hrest₁, List.drop_append_of_le_length (by omega), hx]
    rfl
  · rw [execute_header hctl hrest, headerStep_load hlo hhi hfix hcs]
    show templateExecute env m₁ = _
    rw [execute_eq, hstep]
    rfl

end Header

-- ==================================================== objects of one head

section Scalar

variable {m : Machine β} {b : UInt8} {post bytes : List UInt8}

theorem mapBody_callbackInt (f : β → List UInt8) (d : Int) :
    (callbackInt d : Object β).mapBody f = integer d := by
  unfold callbackInt integer
  split
  · rfl
  · rfl

/-- A header byte that is an object. -/
theorem landed_header {w : Object β} (hctl : m.control = .header)
    (hrest : m.rest = b :: post)
    (hpush : headerStep env b m = pushValue w m) :
    Landed env m [b] post [w] := by
  refine landed_pushValue (m := m) ?_ rfl rfl ?_
  · rw [execute_header hctl hrest, hpush]
  · rw [hrest]
    rfl

/-- A number that is an object. -/
theorem landed_load {w : Object β} {cs : Load} {code : UInt8}
    (hcode : (cs, code) ∈ loadCodes) (hlen : bytes.length = cs.trail)
    (hctl : m.control = .header) (hrest : m.rest = code :: (bytes ++ post))
    (hpush : ∀ n bs m', loadStep env cs (beValue bytes) n bs m'
      = pushValue w m') :
    Landed env m (code :: bytes) post [w] := by
  obtain ⟨x, m', hstack, hpos, hrest', hrun⟩ :=
    execute_load hcode hlen hctl hrest
  refine landed_pushValue (hrun.trans ?_) hstack hpos ?_
  · rw [hpush]
  · rw [hrest']
    rfl

theorem and_fix_str : ∀ n < 32, (0xa0 + n) &&& 0x1f = n := by decide

theorem and_fix_array : ∀ n < 16, (0x90 + n) &&& 0x0f = n := by decide

theorem and_fix_map : ∀ n < 16, (0x80 + n) &&& 0x0f = n := by decide

theorem toNat_ofNat_lt {n : Nat} (h : n < 256) : (UInt8.ofNat n).toNat = n :=
  Nat.mod_eq_of_lt h

/-- Strings. -/
theorem execute_str {head body : List UInt8} (hden : env.Denotes den)
    (hhead : StrHead body.length head) (hctl : m.control = .header)
    (hrest : m.rest = head ++ (body ++ post)) :
    ∃ w, den w = body ∧ Landed env m (head ++ body) post [.str w] := by
  generalize hn : body.length = n at hhead
  cases hhead with
  | fix hsmall =>
      have hb : (UInt8.ofNat (0xa0 + n)).toNat = 0xa0 + n :=
        toNat_ofNat_lt (by omega)
      have hrun : templateExecute env m = resume env
          (againIfZero env .str body.length m.pos m.rest m) := by
        rw [execute_header hctl hrest]
        unfold headerStep
        dsimp only
        rw [hb, if_neg (by omega), if_neg (by omega), if_neg (by omega),
          if_pos (by omega), and_fix_str n hsmall, ← hn]
      exact landed_body .str hden nofun hrun rfl rfl hrest
  | @sized k code bytes hcode hlen =>
      have hload := mem_loadCodes_str.2 hcode
      obtain ⟨x, m', hstack, hpos, hrest', hrun⟩ :=
        execute_load hload hlen hctl hrest
      have hrun' : templateExecute env m = resume env
          (againIfZero env .str body.length (m.pos + 1)
            (bytes ++ (body ++ post)) m') := by
        rw [hrun, hn]
        rfl
      exact landed_body .str hden nofun hrun' hstack hpos hrest'

/-- Binaries. -/
theorem execute_bin {head body : List UInt8} (hden : env.Denotes den)
    (hhead : BinHead body.length head) (hctl : m.control = .header)
    (hrest : m.rest = head ++ (body ++ post)) :
    ∃ w, den w = body ∧ Landed env m (head ++ body) post [.bin w] := by
  generalize hn : body.length = n at hhead
  cases hhead with
  | fix hsmall => exact absurd hsmall (Nat.not_lt_zero n)
  | @sized k code bytes hcode hlen =>
      have hload := mem_loadCodes_bin.2 hcode
      obtain ⟨x, m', hstack, hpos, hrest', hrun⟩ :=
        execute_load hload hlen hctl hrest
      have hrun' : templateExecute env m = resume env
          (againIfZero env .bin body.length (m.pos + 1)
            (bytes ++ (body ++ post)) m') := by
        rw [hrun, hn]
        rfl
      exact landed_body .bin hden nofun hrun' hstack hpos hrest'

/-- Extensions. -/
theorem execute_ext {head body : List UInt8} {type : UInt8}
    (hden : env.Denotes den) (hhead : ExtHead body.length head)
    (hctl : m.control = .header)
    (hrest : m.rest = head ++ (type :: body ++ post)) :
    ∃ w, den w = body
      ∧ Landed env m (head ++ type :: body) post [.ext type.toInt8 w] := by
  generalize hn : body.length = n at hhead
  cases hhead with
  | @fixext _ code hcode =>
      have hfix : headerStep env code m
          = againIfZero env .ext (n + 1) m.pos m.rest m ∧ n ≤ 16 := by
        simp only [List.mem_cons, Prod.mk.injEq, List.not_mem_nil,
          or_false] at hcode
        rcases hcode with ⟨rfl, rfl⟩ | ⟨rfl, rfl⟩ |
          ⟨rfl, rfl⟩ | ⟨rfl, rfl⟩
          | ⟨rfl, rfl⟩
        · exact ⟨rfl, by decide⟩
        · exact ⟨rfl, by decide⟩
        · exact ⟨rfl, by decide⟩
        · exact ⟨rfl, by decide⟩
        · exact ⟨rfl, by decide⟩
      have hrun : templateExecute env m = resume env
          (againIfZero env .ext (body.length + 1) m.pos m.rest m) := by
        rw [execute_header hctl hrest, hfix.1, hn]
      exact landed_ext hden (by omega) hrun rfl rfl hrest
  | @sized k code bytes hcode hlen hmax =>
      have hload := mem_loadCodes_ext.2 hcode
      obtain ⟨x, m', hstack, hpos, hrest', hrun⟩ :=
        execute_load hload hlen hctl hrest
      have hrun' : templateExecute env m = resume env
          (againIfZero env .ext (body.length + 1) (m.pos + 1)
            (bytes ++ (type :: body ++ post)) m') := by
        rw [hrun, hn]
        show resume env (againIfZero env .ext ((beValue bytes + 1) % 2 ^ 32)
          _ _ m') = _
        rw [Nat.mod_eq_of_lt hmax]
      exact landed_ext hden (by omega) hrun' hstack hpos hrest'

/-- A run over the bytes of a scalar object pushes that object. -/
theorem execute_scalar {o : Value} (hden : env.Denotes den)
    (hscalar : Scalar env.toDouble true o bytes)
    (hctl : m.control = .header) (hrest : m.rest = bytes ++ post) :
    ∃ w, w.mapBody den = o ∧ Landed env m bytes post [w] := by
  cases hscalar with
  | nil => exact ⟨.nil, rfl, landed_header hctl hrest rfl⟩
  | false => exact ⟨.boolean false, rfl, landed_header hctl hrest rfl⟩
  | true => exact ⟨.boolean true, rfl, landed_header hctl hrest rfl⟩
  | @fixnum b hb =>
      refine ⟨.positiveInteger (UInt64.ofNat b.toNat), ?_,
        landed_header hctl hrest ?_⟩
      · rw [integer_natCast]
        rfl
      · unfold headerStep
        dsimp only
        rw [if_pos (by omega)]
  | @negativeFixnum b hb =>
      refine ⟨callbackInt (toSigned 1 b.toNat),
        mapBody_callbackInt den _, landed_header hctl hrest ?_⟩
      unfold headerStep
      dsimp only
      rw [if_neg (by omega), if_pos (by omega)]
  | @uint k code bytes hcode hlen =>
      have hload := mem_loadCodes_uint.2 hcode
      refine ⟨.positiveInteger (UInt64.ofNat (beValue bytes)), ?_,
        landed_load hload hlen hctl hrest fun _ _ _ => rfl⟩
      rw [integer_natCast]
      rfl
  | @int k code bytes hcode hlen =>
      have hload := mem_loadCodes_int.2 hcode
      exact ⟨callbackInt (toSigned k (beValue bytes)),
        mapBody_callbackInt den _,
        landed_load hload hlen hctl hrest fun _ _ _ => rfl⟩
  | @float bytes hlen =>
      exact ⟨.float (env.toDouble (UInt32.ofNat (beValue bytes))), rfl,
        landed_load
          (show (Load.float, 0xca) ∈ loadCodes by decide) hlen hctl hrest
          fun _ _ _ => rfl⟩
  | @double bytes hlen =>
      exact ⟨.float (UInt64.ofNat (beValue bytes)), rfl,
        landed_load
          (show (Load.double, 0xcb) ∈ loadCodes by decide) hlen hctl hrest
          fun _ _ _ => rfl⟩
  | str hhead =>
      rw [List.append_assoc] at hrest
      obtain ⟨w, hw, hland⟩ := execute_str hden hhead hctl hrest
      exact ⟨.str w, by rw [Object.mapBody, hw], hland⟩
  | bin hhead =>
      rw [List.append_assoc] at hrest
      obtain ⟨w, hw, hland⟩ := execute_bin hden hhead hctl hrest
      exact ⟨.bin w, by rw [Object.mapBody, hw], hland⟩
  | @ext head body type hhead =>
      rw [List.append_assoc] at hrest
      obtain ⟨w, hw, hland⟩ := execute_ext hden hhead hctl hrest
      exact ⟨.ext type.toInt8 w, by rw [Object.mapBody, hw], hland⟩
  | overflow h => cases h

end Scalar

-- ============================================================ containers

section Containers

variable {m : Machine β} {post head bytes more : List UInt8}
  {os : List Value}

/-- The heads of a container. -/
def ContainerType.Head : ContainerType → Nat → List UInt8 → Prop
  | .array => ArrayHead
  | .map => MapHead

/-- A run over the head of a container starts the container, with `p` at
the last byte of the head. -/
theorem execute_head {n : Nat} (ct : ContainerType) (hhead : ct.Head n head)
    (hctl : m.control = .header) (hrest : m.rest = head ++ post) :
    ∃ x m', m'.stack = m.stack ∧ m'.pos + 1 = m.pos + head.length
      ∧ m'.rest = x :: post
      ∧ templateExecute env m = resume env (startContainer env ct n m') := by
  cases ct with
  | array =>
      cases hhead with
      | fix hsmall =>
          have hb : (UInt8.ofNat (0x90 + n)).toNat = 0x90 + n :=
            toNat_ofNat_lt (by omega)
          refine ⟨_, m, rfl, rfl, hrest, ?_⟩
          rw [execute_header hctl hrest]
          unfold headerStep
          dsimp only
          rw [hb, if_neg (by omega), if_neg (by omega), if_neg (by omega),
            if_neg (by omega), if_pos (by omega), and_fix_array n hsmall]
      | @sized k code bytes hcode hlen =>
          have hload := mem_loadCodes_array.2 hcode
          exact execute_load hload hlen hctl hrest
  | map =>
      cases hhead with
      | fix hsmall =>
          have hb : (UInt8.ofNat (0x80 + n)).toNat = 0x80 + n :=
            toNat_ofNat_lt (by omega)
          refine ⟨_, m, rfl, rfl, hrest, ?_⟩
          rw [execute_header hctl hrest]
          unfold headerStep
          dsimp only
          rw [hb, if_neg (by omega), if_neg (by omega), if_neg (by omega),
            if_neg (by omega), if_neg (by omega), and_fix_map n hsmall]
      | @sized k code bytes hcode hlen =>
          have hload := mem_loadCodes_map.2 hcode
          exact execute_load hload hlen hctl hrest

/-- A container that may be started. -/
theorem startContainer_eq (hgrants : env.Grants) (ct : ContainerType)
    (count : Nat) (hlt : m.stack.length < msgpackEmbedStackSize) :
    startContainer env ct count m
      = if count = 0 then
          pushValue ct.object { m with allocs := m.allocs + 1 }
        else
          .inl { m.advance 1 with
            control := .header, stack := ct.frame count :: m.stack,
            allocs := m.allocs + 1 } := by
  unfold startContainer
  rw [if_neg (Nat.not_le.2 hlt)]
  dsimp only
  rw [if_neg (by rw [hgrants]; decide)]
  rfl

/-- The bytes of objects are parsed: a run over them pushes the objects, if
they are not nested too deep. -/
def Parses (env : Env β) (den : β → List UInt8) (os : List Value)
    (bytes : List UInt8) : Prop :=
  ∀ m post, m.control = .header → m.rest = bytes ++ post →
    m.stack.length + Object.depthItems os ≤ msgpackEmbedStackSize →
    ∃ ws, ws.map (Object.mapBody den) = os
      ∧ (Room ws m.stack → Landed env m bytes post ws)

/-- One object, and then the others. -/
theorem Parses.cons {o : Value}
    (hwires : Wires env.toDouble true os more) (ih : Parses env den os more)
    (hone : ∃ w, w.mapBody den = o ∧ Landed env m bytes (more ++ post) [w])
    (hdepth : m.stack.length + Object.depthItems os
      ≤ msgpackEmbedStackSize) :
    ∃ ws, ws.map (Object.mapBody den) = o :: os
      ∧ (Room ws m.stack → Landed env m (bytes ++ more) post ws) := by
  obtain ⟨w, hw, m', hpos, hrest, hrun⟩ := hone
  rw [pushes_one] at hrun
  cases hpush : push w m.stack with
  | again stack' =>
      have hle := push_length hpush
      obtain ⟨ws, hws, hland⟩ :=
        ih { m' with control := .header, stack := stack' } post rfl hrest
          (by
            show stack'.length + _ ≤ _
            omega)
      refine ⟨w :: ws, by rw [List.map_cons, hw, hws], ?_⟩
      intro hroom
      have hroom' : Room ws stack' := by
        cases ws with
        | nil => trivial
        | cons w' ws =>
            obtain ⟨stack'', hpush', -, hroom'⟩ := hroom
            rw [hpush, Pushed.again.injEq] at hpush'
            exact hpush' ▸ hroom'
      obtain ⟨m'', hpos', hrest', hrun'⟩ := hland hroom'
      refine ⟨m'', ?_, hrest', ?_⟩
      · rw [hpos', List.length_append]
        show m'.pos + _ = _
        omega
      · have hpushes : pushes (w :: ws) m.stack = pushes ws stack' := by
          rw [pushes, hpush]
        rw [hrun, hpush, hpushes]
        exact hrun'
  | finish obj =>
      obtain ⟨ws, hws, -⟩ :=
        ih { m' with control := .header, stack := m.stack } post rfl hrest
          hdepth
      refine ⟨w :: ws, by rw [List.map_cons, hw, hws], ?_⟩
      intro hroom
      cases ws with
      | cons w' ws =>
          obtain ⟨stack', hpush', -⟩ := hroom
          rw [hpush] at hpush'
          cases hpush'
      | nil =>
          subst hws
          cases hwires
          rw [List.append_nil]
          exact ⟨m', hpos, hrest, by rw [pushes_one]; exact hrun⟩

/-- A container whose items are parsed. They come in `n` rounds to its
frame. -/
theorem landed_container {n : Nat} {o : Value} (ct : ContainerType)
    (hgrants : env.Grants) (hhead : ct.Head n head)
    (hctl : m.control = .header) (hrest : m.rest = head ++ (bytes ++ post))
    (hlt : m.stack.length < msgpackEmbedStackSize)
    (hnone : n = 0 → bytes = [] ∧ (ct.object : Object β).mapBody den = o)
    (hitems : n ≠ 0 → ∀ m₁ : Machine β, m₁.control = .header →
      m₁.rest = bytes ++ post → m₁.stack = ct.frame n :: m.stack →
      ∃ ws w, w.mapBody den = o ∧ Landed env m₁ bytes post ws
        ∧ pushes ws (ct.frame n :: m.stack) = push w m.stack) :
    ∃ w, w.mapBody den = o ∧ Landed env m (head ++ bytes) post [w] := by
  obtain ⟨x, m', hstack, hpos, hrest', hrun⟩ :=
    execute_head ct hhead hctl hrest
  rw [startContainer_eq hgrants ct n (by rw [hstack]; exact hlt)] at hrun
  by_cases hn : n = 0
  · obtain ⟨rfl, ho⟩ := hnone hn
    rw [if_pos hn] at hrun
    refine ⟨ct.object, ho, landed_pushValue hrun hstack ?_ ?_⟩
    · rw [List.append_nil]
      exact hpos
    · show m'.rest.drop 1 = post
      rw [hrest']
      rfl
  · rw [if_neg hn] at hrun
    obtain ⟨ws, w, hw, ⟨m₂, hpos₂, hrest₂, hrun₂⟩, hpushes⟩ :=
      hitems hn
      { m'.advance 1 with
        control := .header, stack := ct.frame n :: m'.stack,
        allocs := m'.allocs + 1 } rfl
      (by
        show m'.rest.drop 1 = _
        rw [hrest']
        rfl)
      (by rw [← hstack])
    refine ⟨w, hw, m₂, ?_, hrest₂, ?_⟩
    · rw [hpos₂, List.length_append]
      show m'.pos + 1 + _ = _
      omega
    · rw [pushes_one, ← hpushes, ← hstack]
      exact hrun.trans hrun₂

/-- The objects of `inTurn kvs`, with other bodies, are keys and values in
turn. -/
theorem inTurn_of_map {kvs : List (Value × Value)}
    {ws : List (Object β)}
    (h : ws.map (Object.mapBody den) = inTurn kvs) :
    ∃ kvs', ws = inTurn kvs' ∧ Object.mapKvs den kvs' = kvs := by
  induction kvs generalizing ws with
  | nil => exact ⟨[], List.map_eq_nil_iff.1 h, rfl⟩
  | cons kv kvs ih =>
      obtain ⟨k, v⟩ := kv
      have hturn : inTurn ((k, v) :: kvs) = k :: v :: inTurn kvs := rfl
      rw [hturn] at h
      obtain ⟨k', ws', rfl, hk, h⟩ := List.map_eq_cons_iff.1 h
      obtain ⟨v', ws, rfl, hv, h⟩ := List.map_eq_cons_iff.1 h
      obtain ⟨kvs', rfl, hkvs⟩ := ih h
      exact ⟨(k', v') :: kvs', rfl, by rw [Object.mapKvs, hk, hv, hkvs]⟩

/-- The depth of a map is that of its keys and values. -/
theorem depthItems_inTurn (kvs : List (Object β × Object β)) :
    Object.depthItems (inTurn kvs) = Object.depthKvs kvs := by
  induction kvs with
  | nil => rfl
  | cons kv kvs ih =>
      obtain ⟨k, v⟩ := kv
      have hturn : inTurn ((k, v) :: kvs) = k :: v :: inTurn kvs := rfl
      rw [hturn, Object.depthItems, Object.depthItems, Object.depthKvs, ih]
      omega

/-- A run over the bytes of objects pushes them. -/
theorem execute_wires (hden : env.Denotes den) (hgrants : env.Grants)
    (h : Wires env.toDouble true os bytes) : Parses env den os bytes := by
  induction h with
  | nil =>
      intro m post hctl hrest _
      refine ⟨[], rfl, fun _ => ⟨m, rfl, hrest, ?_⟩⟩
      show templateExecute env m = templateExecute env _
      rw [← hctl]
  | scalar ho hos ih =>
      intro m post hctl hrest hdepth
      rw [List.append_assoc] at hrest
      rw [Object.depthItems] at hdepth
      exact Parses.cons hos ih
        (execute_scalar hden ho hctl hrest) (by omega)
  -- the head pushes a frame, the items fill it, and the last of them takes
  -- it off the stack
  | @array items head bytes os more hhead hitems hos ihitems ih =>
      intro m post hctl hrest hdepth
      rw [List.append_assoc, List.append_assoc] at hrest
      rw [Object.depthItems, Object.depth] at hdepth
      refine Parses.cons hos ih ?_ (by omega)
      refine landed_container .array hgrants hhead hctl hrest (by omega)
        ?_ ?_
      · intro hzero
        obtain rfl := List.length_eq_zero_iff.1 hzero
        cases hitems
        exact ⟨rfl, rfl⟩
      · intro hne m₁ hctl₁ hrest₁ hstack₁
        obtain ⟨ws, hws, hland⟩ := ihitems m₁ _ hctl₁ hrest₁ (by
          rw [hstack₁, List.length_cons]
          omega)
        have hlen : items.length = ws.length := by
          rw [← hws, List.length_map]
        have hwsne : ws ≠ [] := by
          rintro rfl
          exact hne hlen
        obtain ⟨hroom, hpushes⟩ := pushes_items hwsne [] m.stack
        rw [← hlen] at hroom hpushes
        refine ⟨ws, .array ws, ?_, hland (hstack₁ ▸ hroom), hpushes⟩
        rw [Object.mapBody, Object.mapItems_eq, hws]
  -- the same for a map, with keys and values in turn
  | @map kvs head bytes os more hhead hkvs hos ihkvs ih =>
      intro m post hctl hrest hdepth
      rw [List.append_assoc, List.append_assoc] at hrest
      rw [Object.depthItems, Object.depth] at hdepth
      refine Parses.cons hos ih ?_ (by omega)
      refine landed_container .map hgrants hhead hctl hrest (by omega)
        ?_ ?_
      · intro hzero
        obtain rfl := List.length_eq_zero_iff.1 hzero
        cases hkvs
        exact ⟨rfl, rfl⟩
      · intro hne m₁ hctl₁ hrest₁ hstack₁
        obtain ⟨ws, hws, hland⟩ := ihkvs m₁ _ hctl₁ hrest₁ (by
          rw [hstack₁, List.length_cons, depthItems_inTurn]
          omega)
        obtain ⟨kvs', rfl, hkvs'⟩ := inTurn_of_map hws
        have hlen : kvs.length = kvs'.length := by
          rw [← hkvs', Object.mapKvs_eq, List.length_map]
        have hwsne : kvs' ≠ [] := by
          rintro rfl
          exact hne hlen
        obtain ⟨hroom, hpushes⟩ := pushes_inTurn hwsne [] m.stack
        rw [← hlen] at hroom hpushes
        refine ⟨inTurn kvs', .map kvs', ?_, hland (hstack₁ ▸ hroom),
          hpushes⟩
        rw [Object.mapBody, hkvs']

/-- A run over the bytes of one object comes to `_push` with it. -/
theorem execute_one {o : Value} (hden : env.Denotes den)
    (hgrants : env.Grants) (h : Wires env.toDouble true [o] bytes)
    (hctl : m.control = .header) (hrest : m.rest = bytes ++ post)
    (hdepth : m.stack.length + o.depth ≤ msgpackEmbedStackSize) :
    ∃ w, w.mapBody den = o ∧ Landed env m bytes post [w] := by
  obtain ⟨ws, hws, hland⟩ := execute_wires hden hgrants h m post hctl hrest
    (by
      rw [Object.depthItems, Object.depthItems]
      omega)
  obtain ⟨w, rfl, hw⟩ := List.map_eq_singleton_iff.1 hws
  exact ⟨w, hw, hland trivial⟩

end Containers

-- ============================================================= too deep

section Deep

variable {m : Machine β} {post head bytes more : List UInt8}
  {os : List Value}

/-- There is room for `k` objects, whatever they are. -/
def RoomFor (k : Nat) (stack : List (Frame β)) : Prop :=
  ∀ ws : List (Object β), ws.length = k → Room ws stack

/-- There is room for the items of an array that has been started. -/
theorem roomFor_items {n : Nat} (hn : n ≠ 0) (stack : List (Frame β)) :
    RoomFor n (.arrayItem n [] :: stack) := by
  rintro ws rfl
  refine (pushes_items ?_ [] stack).1
  rintro rfl
  exact hn rfl

/-- A list with an even number of objects is keys and values in turn. -/
theorem inTurn_of_even : ∀ (n : Nat) (ws : List (Object β)),
    ws.length = 2 * n → ∃ kvs, ws = inTurn kvs ∧ kvs.length = n
  | 0, ws, h => ⟨[], List.length_eq_zero_iff.1 h, rfl⟩
  | n + 1, [], h => absurd h (by simp)
  | n + 1, [w], h => absurd h (by simp; omega)
  | n + 1, k :: v :: ws, h => by
      obtain ⟨kvs, rfl, hlen⟩ := inTurn_of_even n ws (by
        rw [List.length_cons, List.length_cons] at h
        omega)
      exact ⟨(k, v) :: kvs, rfl, by rw [List.length_cons, hlen]⟩

/-- There is room for the keys and values of a map. -/
theorem roomFor_inTurn {n : Nat} (hn : n ≠ 0) (stack : List (Frame β)) :
    RoomFor (2 * n) (.mapKey n [] :: stack) := by
  intro ws hws
  obtain ⟨kvs, rfl, rfl⟩ := inTurn_of_even n ws hws
  refine (pushes_inTurn ?_ [] stack).1
  rintro rfl
  exact hn rfl

/-- There are two of them for each pair. -/
theorem length_inTurn (kvs : List (Object β × Object β)) :
    (inTurn kvs).length = 2 * kvs.length := by
  induction kvs with
  | nil => rfl
  | cons kv kvs ih =>
      show (inTurn kvs).length + 1 + 1 = _
      rw [ih, List.length_cons]
      omega

/-- What an object leaves of the room. -/
theorem RoomFor.push {k : Nat} {stack : List (Frame β)}
    (h : RoomFor (k + 2) stack) (w : Object β) :
    ∃ stack', push w stack = .again stack'
      ∧ stack'.length = stack.length ∧ RoomFor (k + 1) stack' := by
  obtain ⟨stack', hpush, hlen, -⟩ :=
    h (w :: List.replicate (k + 1) .nil) (by simp)
  refine ⟨stack', hpush, hlen, ?_⟩
  intro ws hws
  cases ws with
  | nil => cases hws
  | cons w' ws =>
      obtain ⟨stack'', hpush', -, hroom⟩ :=
        h (w :: w' :: ws) (by rw [List.length_cons, hws])
      rw [hpush, Pushed.again.injEq] at hpush'
      exact hpush' ▸ hroom

/-- The bytes of objects that are nested too deep make a run fail. -/
def Fails (env : Env β) (os : List Value) (bytes : List UInt8) : Prop :=
  ∀ m post, m.control = .header → m.rest = bytes ++ post →
    m.stack.length ≤ msgpackEmbedStackSize → RoomFor os.length m.stack →
    msgpackEmbedStackSize < m.stack.length + Object.depthItems os →
    ∃ m', templateExecute env m = (.failed, m')

/-- The first of them is, or one that comes later. -/
theorem Fails.cons {o : Value} (hden : env.Denotes den)
    (hgrants : env.Grants) (ho : Wires env.toDouble true [o] bytes)
    (ih : Fails env os more) (hctl : m.control = .header)
    (hrest : m.rest = bytes ++ (more ++ post))
    (hroom : RoomFor (o :: os).length m.stack)
    (hlen : m.stack.length ≤ msgpackEmbedStackSize)
    (hdeep : msgpackEmbedStackSize
      < m.stack.length + Object.depthItems (o :: os))
    (hone : msgpackEmbedStackSize < m.stack.length + o.depth →
      ∃ m', templateExecute env m = (.failed, m')) :
    ∃ m', templateExecute env m = (.failed, m') := by
  rw [Object.depthItems] at hdeep
  by_cases hfirst : msgpackEmbedStackSize < m.stack.length + o.depth
  · exact hone hfirst
  · obtain ⟨w, -, m', hpos, hrest', hrun⟩ :=
      execute_one hden hgrants ho hctl hrest (by omega)
    cases os with
    | nil =>
        rw [Object.depthItems] at hdeep
        omega
    | cons o' os =>
        obtain ⟨stack', hpush, hstack, hroom'⟩ :=
          RoomFor.push (k := os.length) hroom w
        rw [pushes_one, hpush] at hrun
        obtain ⟨m'', hfail⟩ :=
          ih { m' with control := .header, stack := stack' } post rfl
            hrest' (hstack ▸ hlen) hroom' (by
              show _ < stack'.length + _
              omega)
        exact ⟨m'', hrun.trans hfail⟩

/-- A container that cannot be started, or has an item that is nested too
deep. -/
theorem fails_container {n : Nat} (ct : ContainerType)
    (hgrants : env.Grants) (hhead : ct.Head n head)
    (hctl : m.control = .header) (hrest : m.rest = head ++ (bytes ++ post))
    (hitems : m.stack.length < msgpackEmbedStackSize → n ≠ 0
      ∧ ∀ m₁ : Machine β, m₁.control = .header →
        m₁.rest = bytes ++ post →
        m₁.stack = ct.frame n :: m.stack →
        ∃ m', templateExecute env m₁ = (.failed, m')) :
    ∃ m', templateExecute env m = (.failed, m') := by
  obtain ⟨x, m', hstack, -, hrest', hrun⟩ :=
    execute_head ct hhead hctl hrest
  by_cases hlt : m.stack.length < msgpackEmbedStackSize
  · obtain ⟨hn, hall⟩ := hitems hlt
    rw [startContainer_eq hgrants ct n (by rw [hstack]; exact hlt),
      if_neg hn] at hrun
    obtain ⟨m'', hfail⟩ := hall
      { m'.advance 1 with
        control := .header, stack := ct.frame n :: m'.stack,
        allocs := m'.allocs + 1 } rfl
      (by
        show m'.rest.drop 1 = _
        rw [hrest']
        rfl)
      (by rw [← hstack])
    exact ⟨m'', hrun.trans hfail⟩
  · refine ⟨m', ?_⟩
    rw [hrun]
    unfold startContainer
    rw [if_pos (by rw [hstack]; omega)]
    rfl

/-- Objects that are nested too deep end a run. -/
theorem execute_deep (hden : env.Denotes den) (hgrants : env.Grants)
    (h : Wires env.toDouble true os bytes) : Fails env os bytes := by
  induction h with
  | nil =>
      intro m post _ _ hlen _ hdeep
      rw [Object.depthItems] at hdeep
      omega
  | @scalar o bytes os more ho hos ih =>
      intro m post hctl hrest hlen hroom hdeep
      rw [List.append_assoc] at hrest
      refine Fails.cons hden hgrants (.one ho) ih hctl hrest hroom hlen
        hdeep ?_
      intro hone
      -- a scalar is not too deep by itself
      have hscalar : o.depth = 0 := by
        cases ho with
        | fixnum _ | negativeFixnum _ | uint _ _ | int _ _ =>
            unfold integer
            split <;> rfl
        | _ => rfl
      omega
  | @array items head bytes os more hhead hitems hos ihitems ih =>
      intro m post hctl hrest hlen hroom hdeep
      rw [List.append_assoc] at hrest
      refine Fails.cons hden hgrants (.oneArray hhead hitems) ih hctl hrest
        hroom hlen hdeep ?_
      intro hone
      rw [Object.depth] at hone
      rw [List.append_assoc] at hrest
      -- either the stack is full at the head, or one of the items is too
      -- deep
      refine fails_container .array hgrants hhead hctl hrest ?_
      intro hlt
      have hne : items.length ≠ 0 := by
        intro hzero
        obtain rfl := List.length_eq_zero_iff.1 hzero
        rw [Object.depthItems] at hone
        omega
      refine ⟨hne, fun m₁ hctl₁ hrest₁ hstack₁ => ?_⟩
      have hroom₁ := roomFor_items hne m.stack
      refine ihitems m₁ _ hctl₁ hrest₁ ?_ (hstack₁ ▸ hroom₁) ?_
      · rw [hstack₁, List.length_cons]
        omega
      · rw [hstack₁, List.length_cons]
        omega
  | @map kvs head bytes os more hhead hkvs hos ihkvs ih =>
      intro m post hctl hrest hlen hroom hdeep
      rw [List.append_assoc] at hrest
      refine Fails.cons hden hgrants (.oneMap hhead hkvs) ih hctl hrest
        hroom hlen hdeep ?_
      intro hone
      rw [Object.depth] at hone
      rw [List.append_assoc] at hrest
      refine fails_container .map hgrants hhead hctl hrest ?_
      intro hlt
      have hne : kvs.length ≠ 0 := by
        intro hzero
        obtain rfl := List.length_eq_zero_iff.1 hzero
        rw [Object.depthKvs] at hone
        omega
      refine ⟨hne, fun m₁ hctl₁ hrest₁ hstack₁ => ?_⟩
      have hroom₁ := roomFor_inTurn hne m.stack
      rw [← length_inTurn] at hroom₁
      refine ihkvs m₁ _ hctl₁ hrest₁ ?_ (hstack₁ ▸ hroom₁) ?_
      · rw [hstack₁, List.length_cons]
        omega
      · rw [hstack₁, List.length_cons, depthItems_inTurn]
        omega

end Deep

end ProjectsLibs.Msgpack
