/-
`msgpack_unpack_next` and the format.

`unpackNext_wire` is completeness, with the limit on the depth that the
stack sets, and `unpackNext_sound` soundness.

# From the machine to the function

`msgpack_unpack_next` sets up a machine at `off`, runs it, and turns what
it comes to into a return code and a new `off`. The work is in Parse and
Sound: what the machine does with the bytes of one object, and what a run
of it has read. What this file adds is the frame around it.

An object has at least one byte, so where the format says that one is at
`off`, there is something to read and the first test of the function
fails. For completeness there are two cases, by the depth of the object:
containers that the stack has room for are unpacked, deeper ones end in a
parse error with `off` where it was. For soundness the machine starts
with nothing read, and `execute_reads` gives the bytes that were taken;
that they are those between `off` and the new `off` is a count of what is
left of the data.
-/
import ProjectsLibs.Msgpack.Proofs.Sound

namespace ProjectsLibs.Msgpack

open Lib

-- ======================================================== no empty bytes

section Length

variable {toDouble : UInt32 → UInt64} {strict : Bool} {bytes : List UInt8}

/-- A head has at least one byte. -/
theorem Head.length_pos {small base n : Nat} {codes : List (Nat × UInt8)}
    (h : Head small base codes n bytes) : 0 < bytes.length := by
  cases h with
  | fix _ => exact Nat.one_pos
  | sized _ _ => exact Nat.succ_pos _

theorem ExtHead.length_pos {n : Nat} (h : ExtHead n bytes) :
    0 < bytes.length := by
  cases h with
  | fixext _ => exact Nat.one_pos
  | sized _ _ _ => exact Nat.succ_pos _

theorem Scalar.length_pos {o : Value} (h : Scalar toDouble strict o bytes) :
    0 < bytes.length := by
  cases h with
  | str hhead =>
      rw [List.length_append]
      exact Nat.lt_add_right _ hhead.length_pos
  | bin hhead =>
      rw [List.length_append]
      exact Nat.lt_add_right _ hhead.length_pos
  | ext hhead =>
      rw [List.length_append]
      exact Nat.lt_add_right _ hhead.length_pos
  | _ => exact Nat.succ_pos _

/-- An object has bytes. -/
theorem Wires.length_pos {o : Value} {os : List Value}
    (h : Wires toDouble strict (o :: os) bytes) : 0 < bytes.length := by
  cases h with
  | scalar ho _ =>
      rw [List.length_append]
      exact Nat.lt_add_right _ ho.length_pos
  | array hhead _ _ =>
      rw [List.length_append, List.length_append]
      exact Nat.lt_add_right _ (Nat.lt_add_right _ hhead.length_pos)
  | map hhead _ _ =>
      rw [List.length_append, List.length_append]
      exact Nat.lt_add_right _ (Nat.lt_add_right _ hhead.length_pos)

end Length

-- =========================================================== completeness

/-- The bodies are the bytes themselves, on a machine of 64 bits that has
memory. -/
def bytesEnv (toDouble : UInt32 → UInt64) : Env (List UInt8) :=
  ⟨fun _ n bytes => bytes.take n, toDouble, fun _ _ => true, 24, 48, 64⟩

/-- In this instance bodies are kept as bytes. -/
theorem bytesEnv_denotes (toDouble : UInt32 → UInt64) :
    (bytesEnv toDouble).Denotes id :=
  fun _ _ _ _ => rfl

theorem bytesEnv_grants (toDouble : UInt32 → UInt64) :
    (bytesEnv toDouble).Grants :=
  fun _ _ => rfl

section Next

variable {β : Type} {env : Env β} {den : β → List UInt8}

/-- `msgpack_unpack_next` where there is something to read. -/
theorem msgpackUnpackNext_eq {data : List UInt8} {off : Nat}
    (hoff : off < data.length) :
    msgpackUnpackNext env true data off = nextResult off
      (templateExecute env (templateInit off (data.drop off))) := by
  unfold msgpackUnpackNext
  rw [if_neg (Nat.not_le.2 hoff), if_neg (by decide)]

/-- The bytes of an object at `off` are unpacked to it, and `off` goes on
behind them, if memory suffices (`Env.Grants`) and containers are nested
in it no deeper than the stack; if they are nested deeper, there is a
parse error and `off` stays. -/
theorem unpackNext_wire (hden : env.Denotes den) (hgrants : env.Grants)
    {o : Value} {pre bytes post : List UInt8}
    (h : Wire env.toDouble o bytes) :
    (o.depth ≤ msgpackEmbedStackSize → ∃ w, w.mapBody den = o
        ∧ msgpackUnpackNext env true (pre ++ (bytes ++ post)) pre.length
          = (.success, some w, pre.length + bytes.length))
      ∧ (msgpackEmbedStackSize < o.depth →
        msgpackUnpackNext env true (pre ++ (bytes ++ post)) pre.length
          = (.parseError, none, pre.length)) := by
  have hoff : pre.length < (pre ++ (bytes ++ post)).length := by
    have hpos := Wires.length_pos h
    rw [List.length_append, List.length_append]
    omega
  rw [msgpackUnpackNext_eq hoff, List.drop_left]
  refine ⟨fun hdepth => ?_, fun hdeep => ?_⟩
  · obtain ⟨w, hw, m', hpos, -, hrun⟩ := execute_one hden hgrants h
      (m := templateInit pre.length (bytes ++ post)) rfl rfl (by
        show 0 + o.depth ≤ _
        omega)
    refine ⟨w, hw, ?_⟩
    rw [hrun, pushes_one]
    show (UnpackReturn.success, some w, m'.pos) = _
    rw [hpos]
    rfl
  · have hroom : RoomFor 1 ([] : List (Frame β)) := by
      intro ws hws
      obtain ⟨w, rfl⟩ := List.length_eq_one_iff.1 hws
      trivial
    obtain ⟨m', hrun⟩ := execute_deep hden hgrants h
      (templateInit pre.length (bytes ++ post)) post rfl rfl
      (Nat.zero_le _) hroom (by
        show _ < 0 + Object.depthItems [o]
        rw [Object.depthItems, Object.depthItems]
        omega)
    rw [hrun]
    rfl

/-- An object with a byte behind it. -/
theorem unpackNext_wire_nil :
    ∃ w, w.mapBody id = (.nil : Value)
      ∧ msgpackUnpackNext (bytesEnv fun _ => 0) true [0xc0, 0x01] 0
        = (.success, some w, 1) :=
  (@unpackNext_wire _ (bytesEnv fun _ => 0) id (bytesEnv_denotes _)
    (bytesEnv_grants _) .nil [] [0xc0] [0x01] (.one .nil)).1 (by decide)

-- ============================================================== soundness

/-- What is unpacked is the object whose bytes are there, up to the new
`off`. -/
theorem unpackNext_sound (hden : env.Denotes den) {zone : Bool}
    {data : List UInt8} {off off' : Nat} {w : Object β}
    (h : msgpackUnpackNext env zone data off = (.success, some w, off')) :
    ∃ pre bytes post, data = pre ++ (bytes ++ post) ∧ off = pre.length
      ∧ off' = off + bytes.length
      ∧ Wires env.toDouble false [w.mapBody den] bytes := by
  have hlt : off < data.length := by
    by_contra hge
    unfold msgpackUnpackNext at h
    rw [if_pos (Nat.not_lt.1 hge)] at h
    cases h
  cases zone with
  | false =>
      unfold msgpackUnpackNext at h
      rw [if_neg (Nat.not_le.2 hlt), if_pos rfl] at h
      cases h
  | true =>
      rw [msgpackUnpackNext_eq hlt] at h
      cases hrun : templateExecute env (templateInit off (data.drop off)) with
      | mk r m' =>
          obtain ⟨k, hpos, hrest, hle⟩ :=
            execute_at env (templateInit off (data.drop off))
          rw [hrun] at h hpos hrest
          cases r with
          | out => cases h
          | failed => cases h
          | finish obj =>
              have hstart : Reads env.toDouble den []
                  (templateInit off (data.drop off)) :=
                ⟨[], [], rfl, .nil, .header⟩
              obtain ⟨more, hmore, hwires⟩ :=
                execute_reads hden hstart hrun
              cases h
              refine ⟨data.take off, more, m'.rest, ?_, ?_, ?_, hwires⟩
              · rw [← hmore]
                exact (List.take_append_drop off data).symm
              · rw [List.length_take_of_le (Nat.le_of_lt hlt)]
              · have hlen := congrArg List.length hmore
                rw [List.length_append] at hlen
                change m'.rest = (data.drop off).drop k at hrest
                change k ≤ (data.drop off).length at hle
                change (data.drop off).length = _ at hlen
                have hleft : m'.rest.length = (data.drop off).length - k := by
                  rw [hrest, List.length_drop]
                change m'.pos = off + k at hpos
                omega

theorem unpackNext_sound_nil :
    ∃ pre bytes post, ([0xc0] : List UInt8) = pre ++ (bytes ++ post)
      ∧ 0 = pre.length ∧ 1 = 0 + bytes.length
      ∧ Wires (fun _ => 0) false [.nil] bytes :=
  @unpackNext_sound _ (bytesEnv fun _ => 0) id (bytesEnv_denotes _) true
    [0xc0] 0 1 .nil rfl

end Next

end ProjectsLibs.Msgpack
