/-
What a write of the CDC driver sends: the bytes of the buffer, in
transfers of 1 to `MAX_XACT_SIZE` bytes. The loop that cuts the buffer
counts `len` down, and what it returns is what is left of it, so no write
reports the bytes that it has sent (`write_unreported`).

# The three loops

A write cuts its buffer into pieces, allocates a buffer for each piece
and copies the pieces there. The first loop is followed with the length
that is left; it gives every piece the largest size but the last, and
there are as many pieces as the length divided by that size, rounded up.
The second gives each piece a buffer of its own length, if there is
memory. In the third the pieces, one after the other, are the buffer of
the caller again, by induction on the pieces.

The variable that the first loop counts down is the one that the function
returns. Calls into other components are parameters (`WriteEnv`), and the
theorem is about the case in which all of them succeed.
-/
import ProjectsLibs.Usb.CdcWrite

namespace ProjectsLibs.Usb

open Ehci (XactType maxXactSize)

/-- The bytes that the buffer of an xact holds. -/
def OutXact.bytes (x : OutXact) : List UInt8 := x.vaddr.getD []

/-- A transfer of a whole buffer of 1 to `MAX_XACT_SIZE` bytes. -/
structure OutXact.Sends (x : OutXact) : Prop where
  type : x.type = .pidOut
  pos : 1 ≤ x.len
  le : x.len ≤ maxXactSize
  length : x.bytes.length = x.len

/-- The write has sent the buffer and returns its length. -/
def SendsAndReports (buf : List UInt8)
    (result : Option (List OutXact × Int)) : Prop :=
  ∃ xact, result = some (xact, (buf.length : Int))
    ∧ (∀ x ∈ xact, x.Sends) ∧ xact.flatMap OutXact.bytes = buf

variable {roundUp : Nat → Nat → Nat} {env : WriteEnv} {buf : List UInt8}
  {cnt len offset : Nat} {xact : List OutXact}

-- ============================================================ the lengths

/-- A transfer that waits for its buffer. -/
structure OutXact.Cut (x : OutXact) : Prop where
  type : x.type = .pidOut
  pos : 1 ≤ x.len
  le : x.len ≤ maxXactSize

/-- The number of xacts is the least that holds `len` bytes. -/
def Holds (cnt len : Nat) : Prop :=
  len ≤ cnt * maxXactSize ∧ cnt * maxXactSize < len + maxXactSize

/-- The number of pieces is the length divided by the size of a piece,
rounded up. -/
theorem holds_roundUp (h : RoundsUp roundUp) (len : Nat) :
    Holds (roundUp len maxXactSize / maxXactSize) len := by
  obtain ⟨hdvd, hle, hlt⟩ := h len maxXactSize (by decide)
  unfold Holds
  rw [Nat.div_mul_cancel hdvd]
  exact ⟨hle, hlt⟩

/-- The loop uses `len` up. -/
theorem fillLens_spec (h : Holds cnt len) :
    (fillLens cnt len).2 = 0
      ∧ (∀ x ∈ (fillLens cnt len).1, x.Cut)
      ∧ ((fillLens cnt len).1.map OutXact.len).sum = len := by
  induction cnt generalizing len with
  | zero =>
      have hlen : len = 0 := by
        have hle := h.1
        omega
      subst hlen
      simp [fillLens]
  | succ cnt ih =>
      obtain ⟨hle, hlt⟩ := h
      rw [Nat.succ_mul] at hle hlt
      have hpos : 0 < maxXactSize := by decide
      have hmin : (if len < maxXactSize then len else maxXactSize)
          = min len maxXactSize := by
        split <;> omega
      have hlen : 1 ≤ min len maxXactSize := by omega
      have hrest : Holds cnt (len - min len maxXactSize) :=
        ⟨by omega, by omega⟩
      obtain ⟨hzero, hcut, hsum⟩ := ih hrest
      unfold fillLens
      simp only [hmin]
      refine ⟨hzero, ?_, ?_⟩
      · intro x hx
        rcases List.mem_cons.1 hx with rfl | hx
        · exact ⟨rfl, hlen, min_le_right _ _⟩
        · exact hcut x hx
      · rw [List.map_cons, List.sum_cons, hsum]
        show min len maxXactSize + _ = len
        omega

-- ============================================================ the buffers

/-- The xacts with a buffer of their length. -/
def withBuffers (xact : List OutXact) : List OutXact :=
  xact.map fun x => { x with vaddr := some (List.replicate x.len 0) }

/-- If the allocator gives memory, each piece gets a buffer of its own
length. -/
theorem usbAllocXact_eq (hdma : ∀ i, env.dma i = true)
    (hcut : ∀ x ∈ xact, x.Cut) (i : Nat) :
    usbAllocXact env.dma i xact = some (withBuffers xact) := by
  induction xact generalizing i with
  | nil => rfl
  | cons x xact ih =>
      have hpos := (hcut x (List.mem_cons_self ..)).pos
      have htail := ih (fun y hy => hcut y (List.mem_cons_of_mem x hy))
        (i + 1)
      unfold usbAllocXact
      rw [if_pos (by omega), if_pos (hdma i), htail]
      rfl

/-- Each buffer gets its piece, and the pieces are what the xacts have
room for. -/
theorem copyIn_spec (hcut : ∀ x ∈ xact, x.Cut)
    (hle : offset + (xact.map OutXact.len).sum ≤ buf.length) :
    ∃ sent, copyIn buf offset (withBuffers xact) = some sent
      ∧ (∀ x ∈ sent, x.Sends)
      ∧ sent.flatMap OutXact.bytes
        = (buf.drop offset).take (xact.map OutXact.len).sum := by
  induction xact generalizing offset with
  | nil => exact ⟨[], rfl, by simp, by simp⟩
  | cons x xact ih =>
      rw [List.map_cons, List.sum_cons] at hle
      have htail : offset + x.len + (xact.map OutXact.len).sum
          ≤ buf.length := by
        omega
      obtain ⟨sent, hsent, hall, hbytes⟩ := ih
        (fun y hy => hcut y (List.mem_cons_of_mem x hy)) htail
      have hx := hcut x (List.mem_cons_self ..)
      have hpiece : ((buf.drop offset).take x.len).length = x.len := by
        rw [List.length_take, List.length_drop]
        omega
      let x' : OutXact :=
        { x with vaddr := some ((buf.drop offset).take x.len
          ++ (List.replicate x.len 0).drop x.len) }
      -- the buffer of a piece is as long as the piece, so it is
      -- overwritten whole
      have hx' : x'.bytes = (buf.drop offset).take x.len := by
        have hnil : (List.replicate x.len (0 : UInt8)).drop x.len = [] :=
          List.drop_of_length_le (by simp)
        show (buf.drop offset).take x.len ++ _ = _
        rw [hnil, List.append_nil]
      refine ⟨x' :: sent, ?_, ?_, ?_⟩
      -- `memcpy` stays inside both buffers
      · have hroom : x.len ≤ (List.replicate x.len (0 : UInt8)).length
            ∧ offset + x.len ≤ buf.length := by
          refine ⟨by simp, by omega⟩
        show copyIn buf offset ({ x with
          vaddr := some (List.replicate x.len 0) } :: withBuffers xact) = _
        unfold copyIn
        simp only [if_pos hroom, hsent]
        rfl
      · intro y hy
        rcases List.mem_cons.1 hy with rfl | hy
        · exact ⟨hx.type, hx.pos, hx.le, hx' ▸ hpiece⟩
        · exact hall y hy
      · rw [List.flatMap_cons, hx', hbytes, List.map_cons, List.sum_cons,
          List.take_add, List.drop_drop]

-- ============================================================= the result

/-- Calls of other components that all succeed. -/
structure WriteEnv.Succeeds (env : WriteEnv) : Prop where
  malloc : env.malloc = true
  dma : ∀ i, env.dma i = true
  schedule : ∀ xact, env.schedule xact = 0

/-- A write sends the buffer in transfers of 1 to `MAX_XACT_SIZE` bytes
and returns 0. -/
theorem usbCdcWrite_eq (hround : RoundsUp roundUp) (henv : env.Succeeds)
    (buf : List UInt8) :
    ∃ xact, usbCdcWrite roundUp env buf = some (xact, 0)
      ∧ (∀ x ∈ xact, x.Sends) ∧ xact.flatMap OutXact.bytes = buf := by
  obtain ⟨hzero, hcut, hsum⟩ := fillLens_spec (holds_roundUp hround
    buf.length)
  have hle : 0 + ((fillLens (roundUp buf.length maxXactSize / maxXactSize)
      buf.length).1.map OutXact.len).sum ≤ buf.length := by
    rw [hsum]
    omega
  obtain ⟨sent, hsent, hall, hbytes⟩ := copyIn_spec hcut hle
  refine ⟨sent, ?_, hall, ?_⟩
  · unfold usbCdcWrite
    simp only [henv.malloc, if_true, usbAllocXact_eq henv.dma hcut, hsent,
      henv.schedule, hzero]
    rfl
  · rw [hbytes, hsum, List.drop_zero, List.take_length]

/-- No write of a byte or more returns the number of bytes it has sent,
though it sends them all. -/
theorem write_unreported (hround : RoundsUp roundUp) (henv : env.Succeeds)
    (hbuf : 1 ≤ buf.length) :
    (∃ xact, usbCdcWrite roundUp env buf = some (xact, 0)
      ∧ (∀ x ∈ xact, x.Sends) ∧ xact.flatMap OutXact.bytes = buf)
    ∧ ¬SendsAndReports buf (usbCdcWrite roundUp env buf) := by
  obtain ⟨xact, hwrite, hsent⟩ := usbCdcWrite_eq hround henv buf
  refine ⟨⟨xact, hwrite, hsent⟩, ?_⟩
  intro ⟨xact', hreport, _⟩
  rw [hwrite] at hreport
  have hlen : (0 : Int) = buf.length :=
    congrArg Prod.snd (Option.some.inj hreport)
  omega

/-- `ROUND_UP` by a division. -/
def ceilMul (n b : Nat) : Nat := (n + b - 1) / b * b

/-- Rounding up to a multiple does round up. -/
theorem roundsUp_ceilMul : RoundsUp ceilMul := by
  intro n b hb
  unfold ceilMul
  have hlt := Nat.lt_div_mul_add hb (a := n + b - 1)
  have hle := Nat.div_mul_le_self (n + b - 1) b
  exact ⟨Nat.dvd_mul_left .., by omega, by omega⟩

/-- Calls that all succeed. -/
def idealEnv : WriteEnv :=
  { malloc := true, dma := fun _ => true, schedule := fun _ => 0 }

/-- A buffer of one byte more than a transfer. -/
theorem write_unreported_two :
    1 ≤ (List.replicate 20481 (7 : UInt8)).length
      ∧ (∃ xact, usbCdcWrite ceilMul idealEnv (List.replicate 20481 7)
          = some (xact, 0)
        ∧ (∀ x ∈ xact, x.Sends)
        ∧ xact.flatMap OutXact.bytes = List.replicate 20481 7)
      ∧ ¬SendsAndReports (List.replicate 20481 7)
        (usbCdcWrite ceilMul idealEnv (List.replicate 20481 7)) := by
  have hbuf : 1 ≤ (List.replicate 20481 (7 : UInt8)).length := by
    rw [List.length_replicate]
    omega
  exact ⟨hbuf, write_unreported roundsUp_ceilMul
    ⟨rfl, fun _ => rfl, fun _ => rfl⟩ hbuf⟩

/-- A byte is sent, and the write returns 0. -/
theorem byte_unreported :
    usbCdcWrite ceilMul idealEnv [7]
        = some ([⟨.pidOut, 1, some [7]⟩], 0)
      ∧ ¬SendsAndReports [7] (usbCdcWrite ceilMul idealEnv [7]) := by
  have hwrite : usbCdcWrite ceilMul idealEnv [7]
      = some ([⟨.pidOut, 1, some [7]⟩], 0) := by decide
  refine ⟨hwrite, ?_⟩
  intro ⟨xact, hreport, _⟩
  rw [hwrite] at hreport
  cases hreport

end ProjectsLibs.Usb
