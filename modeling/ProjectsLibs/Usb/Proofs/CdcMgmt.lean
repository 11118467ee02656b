/-
The management requests set what they are given, but get nothing.

The device keeps the data of the latest calls (`acm_kept`), and a call that
gets something does not change it. What the call yields, though, is what
its buffer held before (`acmGetLineCoding_eq`, `acmGetCommFeature_eq`): the
copy out of `usb_cdc_mgmt_msg` has the packet as its destination, and
`acm_get_comm_feature` asks for an OUT packet besides. So the calls yield
the latest values exactly if these are in the buffers already
(`getsLatest_iff`).

# Into the device and out of it

The two directions of a message are two lemmas (`usbCdcMgmtMsg_out`,
`usbCdcMgmtMsg_in`), and each of the four calls is one of them with its
own values. That what was set is kept needs the round trip of the line
coding through its seven bytes, and that of a state through two.

A run is a list of calls, and the history has the latest value that was
set for each kind. The device agrees with it after every step
(`Acm.Kept.step`), so what is left to compare is what a call yields with
what the device has, which is done for one step (`getsLatest_step`) and
carried to a run by induction.
-/
import ProjectsLibs.Usb.CdcMgmt

namespace ProjectsLibs.Usb

open Lib

variable {comm : UInt8} {s s' : Acm} {a : AcmAction}

-- ================================================================ values

/-- The line coding is 7 bytes long, as in the class definition. -/
theorem AcmLineCoding.length_bytes (c : AcmLineCoding) :
    c.bytes.length = 7 := by
  simp [bytes]

/-- The structure is read back from its bytes. -/
theorem AcmLineCoding.ofBytes_bytes (c : AcmLineCoding) :
    ofBytes c.bytes = c := by
  have hlt : c.dwDTERate.toNat < 256 ^ 4 := c.dwDTERate.toNat_lt
  have hrate : UInt32.ofNat (leValue (leBytes 4 c.dwDTERate.toNat))
      = c.dwDTERate := by
    rw [leValue_leBytes, Nat.mod_eq_of_lt hlt, UInt32.ofNat_toNat]
  have hlen : (leBytes 4 c.dwDTERate.toNat).length = 4 := length_leBytes ..
  simp only [ofBytes, bytes, List.take_left' hlen, hrate,
    List.getD_eq_getElem?_getD]
  rw [List.getElem?_append_right (by omega),
    List.getElem?_append_right (by omega),
    List.getElem?_append_right (by omega), hlen]
  rfl

/-- So is a state. -/
theorem ofNat_leValue_leBytes (state : UInt16) :
    UInt16.ofNat (leValue (leBytes 2 state.toNat)) = state := by
  have hlt : state.toNat < 256 ^ 2 := state.toNat_lt
  rw [leValue_leBytes, Nat.mod_eq_of_lt hlt, UInt16.ofNat_toNat]

/-- What is copied into a packet is what it sends. -/
theorem take_memcpy {dst src : List UInt8} {len : Nat}
    (hlen : src.length = len) : (memcpy dst src len).take len = src := by
  rw [memcpy, List.take_of_length_le (Nat.le_of_eq hlen),
    List.take_left' hlen]

-- ============================================================== messages

section messages

variable (comm : UInt8) (dev : CdcDevice) (dma : List UInt8)

/-- A message never writes to the buffer of the caller. -/
theorem usbCdcMgmtMsg_buf (reqType : UInt8) (code value : Nat)
    (buf : List UInt8) (len : Nat) :
    (usbCdcMgmtMsg comm dev dma reqType code value buf len).buf = buf := by
  unfold usbCdcMgmtMsg
  split
  · rfl
  · rfl

/-- A message to the device, with its data. -/
theorem usbCdcMgmtMsg_out (code value : Nat) {buf : List UInt8} {len : Nat}
    (hpos : 0 < len) (hlen : buf.length = len) :
    (usbCdcMgmtMsg comm dev dma
        (usbDirOut ||| usbTypeCls ||| usbRcptInterface) code value buf
        len).dev
      = if code = setLineCoding then { dev with lineCoding := buf }
        else if code = setCommFeature then
          { dev with commFeature := Function.update dev.commFeature value buf }
        else dev := by
  have hdir : (usbDirOut ||| usbTypeCls ||| usbRcptInterface) &&& usbDirIn
      = 0 := by decide
  simp only [usbCdcMgmtMsg, if_pos hpos, hdir, ne_eq, not_true, if_false,
    controlTransfer, CdcDevice.handle, if_true, take_memcpy hlen]
  split
  · rfl
  · split
    · rfl
    · rfl

/-- A message from the device. -/
theorem usbCdcMgmtMsg_in (code value : Nat) (buf : List UInt8) {len : Nat}
    (hpos : 0 < len) :
    (usbCdcMgmtMsg comm dev dma
        (usbDirIn ||| usbTypeCls ||| usbRcptInterface) code value buf
        len).dev = dev := by
  have hdir : (usbDirIn ||| usbTypeCls ||| usbRcptInterface) &&& usbDirIn
      ≠ 0 := by decide
  simp only [usbCdcMgmtMsg, if_pos hpos, ne_eq, hdir, not_false_eq_true,
    if_true, controlTransfer, CdcDevice.handle, if_false]
  split
  · rfl
  · split
    · rfl
    · rfl

-- ============================================================== the calls

/-- The device ends up with the coding that was passed in. -/
theorem acmSetLineCoding_eq (c : AcmLineCoding) :
    acmSetLineCoding comm dev dma c = { dev with lineCoding := c.bytes } := by
  rw [acmSetLineCoding, usbCdcMgmtMsg_out comm dev dma _ _ (by decide)
    c.length_bytes, if_pos rfl]

/-- The device ends up with the state of this feature set, and of no other. -/
theorem acmSetCommFeature_eq (f : AcmCommFeature) (state : UInt16) :
    acmSetCommFeature comm dev dma f state
      = { dev with
          commFeature := Function.update dev.commFeature f.code
            (leBytes 2 state.toNat) } := by
  rw [acmSetCommFeature, usbCdcMgmtMsg_out comm dev dma _ _ (by decide)
    (length_leBytes ..), if_neg (by decide), if_pos rfl]

/-- The line coding that is got is what the caller had. -/
theorem acmGetLineCoding_eq (c : AcmLineCoding) :
    acmGetLineCoding comm dev dma c = (dev, c) := by
  simp only [acmGetLineCoding]
  rw [usbCdcMgmtMsg_in comm dev dma _ _ _ (by decide), usbCdcMgmtMsg_buf,
    AcmLineCoding.ofBytes_bytes]

/-- The state that is got is what was in the variable. -/
theorem acmGetCommFeature_eq (f : AcmCommFeature) (state : UInt16) :
    acmGetCommFeature comm dev dma f state = (dev, state) := by
  simp only [acmGetCommFeature]
  rw [usbCdcMgmtMsg_out comm dev dma _ _ (by decide) (length_leBytes ..),
    usbCdcMgmtMsg_buf, if_neg (by decide), if_neg (by decide),
    ofNat_leValue_leBytes]

end messages

-- ================================================================== runs

/-- Calls never fail. -/
theorem acmStep_run (comm : UInt8) (s : Acm) (acts : List AcmAction) :
    ∃ s', run (acmStep comm) s acts = some s' := by
  induction acts generalizing s with
  | nil => exact ⟨s, rfl⟩
  | cons a rest ih =>
      obtain ⟨t, ht⟩ : ∃ t, acmStep comm s a = some t := by
        unfold acmStep
        split
        · exact ⟨_, rfl⟩
        · exact ⟨_, rfl⟩
        · exact ⟨_, rfl⟩
        · exact ⟨_, rfl⟩
      obtain ⟨s', hs'⟩ := ih t
      refine ⟨s', ?_⟩
      rw [run, ht]
      exact hs'

/-- A call keeps the device in step with the history. -/
theorem Acm.Kept.step (h : s.Kept) (hst : acmStep comm s a = some s') :
    s'.Kept := by
  unfold acmStep at hst
  split at hst
  case h_1 coding _ =>
    rw [acmSetLineCoding_eq] at hst
    cases hst
    refine ⟨?_, h.commFeature⟩
    intro c hc
    cases hc
    rfl
  case h_2 coding _ =>
    rw [acmGetLineCoding_eq] at hst
    cases hst
    exact ⟨h.lineCoding, h.commFeature⟩
  case h_3 f state _ =>
    rw [acmSetCommFeature_eq] at hst
    cases hst
    refine ⟨h.lineCoding, ?_⟩
    intro g v hv
    change Function.update s.latest.commFeature f (some state) g = some v at hv
    by_cases hg : g = f
    · subst hg
      rw [Function.update_self] at hv
      cases hv
      exact Function.update_self _ _ _
    · have hcode : g.code ≠ f.code := by
        cases g <;> cases f <;> first | exact absurd rfl hg | decide
      rw [Function.update_of_ne hg] at hv
      show Function.update s.dev.commFeature f.code _ g.code = _
      rw [Function.update_of_ne hcode]
      exact h.commFeature g v hv
  case h_4 f state _ =>
    rw [acmGetCommFeature_eq] at hst
    cases hst
    exact ⟨h.lineCoding, h.commFeature⟩

/-- Whatever the calls, the device has what the latest ones set. -/
theorem acm_kept (dev : CdcDevice)
    (hs : Reachable (· = Acm.start dev) (acmStep comm) anyStep s) :
    s.Kept := by
  apply hs.invariant (I := Acm.Kept)
  · intro s hs
    subst hs
    refine ⟨?_, ?_⟩
    · intro c hc
      cases hc
    · intro f v hv
      cases hv
  · intro s a s' h _ hst
    exact h.step hst

/-- One call: it yields the latest value exactly if this is in its buffer
already. -/
theorem getsLatest_step (hst : acmStep comm s a = some s') :
    GetsLatest s a s' ↔ AlreadyThere s a := by
  unfold acmStep at hst
  unfold GetsLatest AlreadyThere
  split at hst
  case h_1 _ hcall =>
    rw [hcall]
  case h_2 coding hcall =>
    rw [acmGetLineCoding_eq] at hst
    cases hst
    rw [hcall]
    simp
  case h_3 _ _ hcall =>
    rw [hcall]
  case h_4 f state hcall =>
    rw [acmGetCommFeature_eq] at hst
    cases hst
    rw [hcall]
    simp

/-- In every run of calls, each that gets something yields the latest value
and leaves the device alone exactly if each finds the value in its buffer
already. -/
theorem getsLatest_iff (comm : UInt8) (dev : CdcDevice)
    (acts : List AcmAction) :
    AllMoves (acmStep comm) GetsLatest (Acm.start dev) acts
      ↔ AllSteps (acmStep comm) AlreadyThere (Acm.start dev) acts := by
  obtain ⟨s', hrun⟩ := acmStep_run comm (Acm.start dev) acts
  refine allMoves_iff_of_good (J := fun _ => True) ?_ ?_ trivial hrun
  · intro s a s' _ hok hst
    exact ⟨trivial, (getsLatest_step hst).2 hok⟩
  · intro s a s' _ hnot hst hgets
    exact hnot ((getsLatest_step hst).1 hgets)

/-- The line coding 115200 8N1 is set, and the buffer of the call that gets
it is zero. -/
theorem getsLatest_zero :
    ¬AllMoves (acmStep 0) GetsLatest (Acm.start ⟨[], fun _ => []⟩)
      [⟨.setLineCoding ⟨115200, 0, 0, 8⟩, []⟩,
        ⟨.getLineCoding ⟨0, 0, 0, 0⟩, []⟩] := by
  intro hmoves
  have hget := ((hmoves _ rfl).2 _ rfl).1
  have hresult := hget.2 ⟨115200, 0, 0, 8⟩ rfl
  exact absurd hresult (by decide)

end ProjectsLibs.Usb
