/-
`parse_config` on a table of descriptors: what the callback is called
with, the endpoints and the class that are stored (`config_parsed`).

One pass of the loop extends the descriptors behind it by one (`Parsed`),
if the fields that it reads of the copy lie in the descriptor
(`Readable`). The functions of the descriptors in the statements
(`configOf` to `callsOf`) are about the list, not about the run.

# The loop in two layers

A pass of the loop is a sequence of five steps, any of which may leave
the loop or end it for good. For each step there is an equation for the
case that its reads lie in the descriptor; `Decoded.decodeDesc` puts the
three kinds of descriptors together. The variables of the parser behind
the descriptors `ds` are functions of `ds`, given by what comes last in
the list, so each pass is an equation about a list with one element more
(the lemmas `_append`).

The callback is given the history of calls and the device, and may write
to the device. What it leaves is folded into the device of the next pass
(`deviceFrom`), and the two statements about the class and the endpoints
are about callbacks that leave these alone; the last theorem is a
callback of the repository that does not.
-/
import ProjectsLibs.Lib.Loop
import ProjectsLibs.Usb.Config

namespace ProjectsLibs.Usb

open Lib

-- ===================================================== the descriptors

/-- A field of one byte. -/
def field (off : Nat) (d : List UInt8) : UInt8 := d.getD off 0

def hasType (t : Nat) (d : List UInt8) : Bool :=
  (d[1]?).any fun b => b.toNat = t

/-- `bConfigurationValue` of the latest configuration, or -1. -/
def configOf (ds : List (List UInt8)) : Int :=
  (ds.reverse.find? (hasType descConfiguration)).elim (-1) fun d =>
    ((field 5 d).toNat : Int)

/-- `bInterfaceNumber` of the latest interface since the latest
configuration, or -1. -/
def ifaceOf (ds : List (List UInt8)) : Int :=
  ((ds.reverse.takeWhile fun d => !hasType descConfiguration d).find?
    (hasType descInterface)).elim (-1) fun d => ((field 2 d).toNat : Int)

/-- The class, or if it is 0, the first of an interface that is not. -/
def classOf (cls : UInt8) (ds : List (List UInt8)) : UInt8 :=
  if cls = 0 then
    (((ds.filter (hasType descInterface)).map (field 5)).find?
      (· ≠ 0)).getD 0
  else cls

/-- The endpoints, decoded. -/
def epsOf (ds : List (List UInt8)) : List ConfigEp :=
  (ds.filter (hasType descEndpoint)).map fun d =>
    endpointOf (field 2 d) (field 3 d) (field 4 d) (field 5 d) (field 6 d)

/-- One call for each descriptor. -/
def callsOf (ds : List (List UInt8)) : List ConfigCall :=
  (List.range ds.length).map fun i =>
    ⟨configOf (ds.take (i + 1)), ifaceOf (ds.take (i + 1)), ds[i]?⟩

/-- What the parser stores of a descriptor behind `ds`. -/
def storeDesc (ds : List (List UInt8)) (d : List UInt8) (dev : ConfigDev) :
    ConfigDev where
  cls := if hasType descInterface d ∧ dev.cls = 0 then field 5 d
    else dev.cls
  ep := if hasType descEndpoint d then
      Function.update dev.ep (epsOf ds).length
        (some (endpointOf (field 2 d) (field 3 d) (field 4 d) (field 5 d)
          (field 6 d)))
    else dev.ep

/-- What the callback leaves of the device after these calls. -/
def answered (cb : Option ConfigCb) (calls : List ConfigCall)
    (dev : ConfigDev) : ConfigDev :=
  cb.elim dev fun f => (f calls dev).2

/-- The device behind the descriptors `ds'`, which follow `ds`: the parser
stores what it takes of each, and then it is the turn of the callback. -/
def deviceFrom (cb : Option ConfigCb) :
    List (List UInt8) → List (List UInt8) → ConfigDev → ConfigDev
  | _, [], dev => dev
  | ds, d :: ds', dev =>
      deviceFrom cb (ds ++ [d]) ds'
        (answered cb (callsOf (ds ++ [d])) (storeDesc ds d dev))

/-- The device behind the descriptors. -/
def deviceOf (cb : Option ConfigCb) (udev : ConfigDev)
    (ds : List (List UInt8)) : ConfigDev := deviceFrom cb [] ds udev

/-- The end of the fields that are read of a descriptor, when the class
is `cls`. -/
def fieldsEnd (cls : UInt8) (type : Nat) : Nat :=
  if type = descConfiguration then 6
  else if type = descInterface then if cls = 0 then 6 else 3
  else if type = descEndpoint then 7
  else 0

/-- A descriptor with what follows it in the table: its length is the one
that it states, its type is in the table, and the fields that are read are
in it. -/
structure Readable (cls : UInt8) (d t : List UInt8) : Prop where
  header : d.head?.map UInt8.toNat = some d.length
  fields : ∃ b, (d ++ t)[1]? = some b ∧ fieldsEnd cls b.toNat ≤ d.length

/-- The class behind descriptors. -/
abbrev Classes := List (List UInt8) → UInt8

/-- Descriptors behind `ds` whose fields lie in them, up to the end of the
table or a byte 0, where `classes` is the class that each finds. -/
structure FitsFrom (classes : Classes) (ds ds' : List (List UInt8))
    (rest : List UInt8) : Prop where
  stop : rest = [] ∨ rest.head? = some 0
  eps : (epsOf (ds ++ ds')).length ≤ usbMaxEps
  each : ∀ pre d post, ds' = pre ++ d :: post →
    Readable (classes (ds ++ pre)) d (post.flatten ++ rest)

variable {ds ds' : List (List UInt8)} {d t rest : List UInt8}
  {cls : UInt8} {classes : Classes}

theorem configOf_append :
    configOf (ds ++ [d])
      = if hasType descConfiguration d then ((field 5 d).toNat : Int)
        else configOf ds := by
  unfold configOf
  rw [List.reverse_append, List.reverse_singleton, List.singleton_append,
    List.find?_cons]
  cases hasType descConfiguration d <;> rfl

/-- A configuration descriptor puts the interface back to -1. -/
theorem ifaceOf_append :
    ifaceOf (ds ++ [d])
      = if hasType descConfiguration d then -1
        else if hasType descInterface d then ((field 2 d).toNat : Int)
        else ifaceOf ds := by
  unfold ifaceOf
  rw [List.reverse_append, List.reverse_singleton, List.singleton_append,
    List.takeWhile_cons]
  cases hasType descConfiguration d with
  | true => rfl
  | false =>
      simp only [Bool.not_false, if_true, List.find?_cons]
      cases hasType descInterface d <;> rfl

/-- The first interface with a class counts, since the class is stored only
over 0. -/
theorem classOf_append :
    classOf cls (ds ++ [d])
      = if hasType descInterface d ∧ classOf cls ds = 0 then field 5 d
        else classOf cls ds := by
  unfold classOf
  by_cases hcls : cls = 0
  · rw [if_pos hcls, if_pos hcls, List.filter_append, List.map_append,
      List.find?_append]
    cases htype : hasType descInterface d with
    | false => simp [htype]
    | true =>
        cases hfound : ((ds.filter (hasType descInterface)).map
            (field 5)).find? (· ≠ 0) with
        | none =>
            by_cases hzero : field 5 d = 0
            · simp [htype, hzero]
            · simp [htype, hzero]
        | some c =>
            have hc : c ≠ 0 := by
              simpa using List.find?_some hfound
            simp [hc]
  · rw [if_neg hcls, if_neg hcls]
    simp [hcls]

theorem epsOf_append :
    epsOf (ds ++ [d])
      = epsOf ds ++ if hasType descEndpoint d then
          [endpointOf (field 2 d) (field 3 d) (field 4 d) (field 5 d)
            (field 6 d)]
        else [] := by
  unfold epsOf
  rw [List.filter_append, List.map_append]
  cases htype : hasType descEndpoint d <;> simp [htype]

/-- Each descriptor is handed to the callback once, with the numbers that
hold at it. -/
theorem callsOf_append :
    callsOf (ds ++ [d])
      = callsOf ds
        ++ [⟨configOf (ds ++ [d]), ifaceOf (ds ++ [d]), some d⟩] := by
  unfold callsOf
  rw [List.length_append, List.length_singleton, List.range_succ,
    List.map_append]
  congr 1
  · refine List.map_congr_left fun i hi => ?_
    have hi := List.mem_range.1 hi
    rw [List.take_append_of_le_length (by omega),
      List.getElem?_append_left hi]
  · have htake : (ds ++ [d]).take (ds.length + 1) = ds ++ [d] :=
      List.take_of_length_le (by simp)
    simp [htake]

/-- The record after one more descriptor: it is stored, and the callback
may write to the record. -/
theorem deviceFrom_append (cb : Option ConfigCb) (dev : ConfigDev) :
    deviceFrom cb ds (ds' ++ [d]) dev
      = answered cb (callsOf (ds ++ ds' ++ [d]))
        (storeDesc (ds ++ ds') d (deviceFrom cb ds ds' dev)) := by
  induction ds' generalizing ds dev with
  | nil =>
      rw [List.append_nil]
      rfl
  | cons e ds' ih =>
      rw [List.cons_append, deviceFrom, ih, ← List.append_cons]
      rfl

/-- The same, from the record that the parser was started with. -/
theorem deviceOf_append (cb : Option ConfigCb) (udev : ConfigDev)
    (ds : List (List UInt8)) (d : List UInt8) :
    deviceOf cb udev (ds ++ [d])
      = answered cb (callsOf (ds ++ [d]))
        (storeDesc ds d (deviceOf cb udev ds)) := by
  rw [deviceOf, deviceFrom_append]
  rfl

/-- A callback leaves the class alone. -/
def LeavesClass (cb : Option ConfigCb) : Prop :=
  ∀ calls dev, (answered cb calls dev).cls = dev.cls

/-- A callback leaves the endpoints alone. -/
def LeavesEps (cb : Option ConfigCb) : Prop :=
  ∀ calls dev, (answered cb calls dev).ep = dev.ep

/-- The class, when only the parser writes it. -/
theorem deviceOf_cls {cb : Option ConfigCb} (hcb : LeavesClass cb)
    (udev : ConfigDev) (ds : List (List UInt8)) :
    (deviceOf cb udev ds).cls = classOf udev.cls ds := by
  induction ds using List.reverseRecOn with
  | nil => simp [deviceOf, deviceFrom, classOf]
  | append_singleton ds d ih =>
      rw [deviceOf_append, hcb, classOf_append, ← ih]
      rfl

/-- The endpoints, when only the parser writes them. -/
theorem deviceOf_ep {cb : Option ConfigCb} (hcb : LeavesEps cb)
    (udev : ConfigDev) (ds : List (List UInt8)) (i : Nat) :
    (deviceOf cb udev ds).ep i = ((epsOf ds)[i]?).or (udev.ep i) := by
  induction ds using List.reverseRecOn with
  | nil => rfl
  | append_singleton ds d ih =>
      rw [deviceOf_append, hcb, epsOf_append]
      unfold storeDesc
      cases htype : hasType descEndpoint d with
      | false => simpa [htype] using ih
      | true =>
          simp only [if_true]
          by_cases hlast : i = (epsOf ds).length
          · subst hlast
            simp
          · rw [Function.update_of_ne hlast, ih]
            by_cases hlt : i < (epsOf ds).length
            · rw [List.getElem?_append_left hlt]
            · rw [List.getElem?_eq_none (by omega),
                List.getElem?_eq_none (by simp; omega)]

theorem length_epsOf_le (ds ds' : List (List UInt8)) :
    (epsOf ds).length ≤ (epsOf (ds ++ ds')).length := by
  unfold epsOf
  simp

namespace Readable

/-- The type as the parser reads it, from the table, is the one of the
descriptor, when it is one with fields. -/
theorem hasType_iff (h : Readable cls d t) {b : UInt8}
    (hb : (d ++ t)[1]? = some b) (type : Nat)
    (htype : type ∈ [descConfiguration, descInterface, descEndpoint]) :
    hasType type d = true ↔ b.toNat = type := by
  obtain ⟨b', hb', hend⟩ := h.fields
  obtain rfl : b = b' := by
    rw [hb] at hb'
    exact Option.some.inj hb'
  unfold hasType
  by_cases hlen : 1 < d.length
  · rw [List.getElem?_append_left hlen] at hb
    simp [hb]
  · have hnone : d[1]? = none := by
      simpa using hlen
    rw [hnone]
    constructor
    · intro hfalse
      cases hfalse
    · intro heq
      have hend' : 3 ≤ fieldsEnd cls b.toNat := by
        rw [heq]
        simp only [List.mem_cons, List.not_mem_nil, or_false] at htype
        unfold fieldsEnd
        split_ifs <;> omega
      omega

/-- A descriptor that can be read has its header. -/
theorem length_pos (h : Readable cls d t) : 0 < d.length := by
  cases d with
  | nil => cases h.header
  | cons b d => exact Nat.succ_pos _

/-- Fewer fields are read where the class is not 0. -/
theorem weaken {cls' : UInt8} (h : Readable cls d t)
    (hcls : cls' = 0 → cls = 0) : Readable cls' d t where
  header := h.header
  fields := by
    obtain ⟨b, hb, hend⟩ := h.fields
    refine ⟨b, hb, le_trans ?_ hend⟩
    unfold fieldsEnd
    by_cases hzero : cls' = 0
    · rw [hzero, hcls hzero]
    · rw [if_neg hzero]
      split_ifs <;> omega

end Readable

namespace FitsFrom

theorem head (h : FitsFrom classes ds (d :: ds') rest) :
    Readable (classes ds) d (ds'.flatten ++ rest) := by
  have hread := h.each [] d ds' rfl
  rwa [List.append_nil] at hread

/-- The endpoints up to it fit into the table. -/
theorem eps_head (h : FitsFrom classes ds (d :: ds') rest) :
    (epsOf (ds ++ [d])).length ≤ usbMaxEps := by
  have hle := length_epsOf_le (ds ++ [d]) ds'
  have heps := h.eps
  rw [List.append_cons] at heps
  omega

/-- What comes behind it fits as well. -/
theorem tail (h : FitsFrom classes ds (d :: ds') rest) :
    FitsFrom classes (ds ++ [d]) ds' rest where
  stop := h.stop
  eps := List.append_cons ds d ds' ▸ h.eps
  each pre d' post hds' := by
    have hread := h.each (d :: pre) d' post (by rw [hds']; rfl)
    rwa [List.append_cons] at hread

/-- A descriptor that can be read may stand in front. -/
theorem cons (hread : Readable (classes ds) d (ds'.flatten ++ rest))
    (h : FitsFrom classes (ds ++ [d]) ds' rest) :
    FitsFrom classes ds (d :: ds') rest where
  stop := h.stop
  eps := by
    rw [List.append_cons]
    exact h.eps
  each pre d' post hds := by
    cases pre with
    | nil =>
        obtain ⟨rfl, rfl⟩ := List.cons.inj hds
        rw [List.append_nil]
        exact hread
    | cons e pre =>
        obtain ⟨rfl, htail⟩ := List.cons.inj hds
        rw [List.append_cons]
        exact h.each pre d' post htail

end FitsFrom

-- ====================================================== parts of the loop

variable {alloc : Nat → Bool} {cb : Option ConfigCb} {udev dev : ConfigDev}
  {s s' : Parser} {n : Nat}

@[simp] theorem ConfigStep.andThen_next (f : Parser → ConfigStep) :
    ConfigStep.andThen (.ok (s, .next)) f = f s := rfl

@[simp] theorem ConfigStep.andThen_leave (f : Parser → ConfigStep) :
    ConfigStep.andThen (.ok (s, .leave)) f = .ok (s, .leave) := rfl

@[simp] theorem ConfigStep.andThen_fatal (f : Parser → ConfigStep) :
    ConfigStep.andThen (.ok (s, .fatal)) f = .ok (s, .fatal) := rfl

/-- A sequence that ended well went through its first part, or left it
early. -/
theorem ConfigStep.andThen_eq_ok {x : ConfigStep}
    {f : Parser → ConfigStep} {r : Parser × Flow}
    (h : x.andThen f = .ok r) :
    (∃ s, x = .ok (s, .next) ∧ f s = .ok r) ∨ x = .ok r
      ∧ r.2 ≠ .next := by
  match x, h with
  | .ok (s, .next), h => exact .inl ⟨s, rfl, h⟩
  | .ok (s, .leave), h =>
      cases h
      exact .inr ⟨rfl, fun hflow => nomatch hflow⟩
  | .ok (s, .fatal), h =>
      cases h
      exact .inr ⟨rfl, fun hflow => nomatch hflow⟩

/-- The fields read so far lie in their descriptors. -/
def Parser.Within (s : Parser) : Prop := ∀ r ∈ s.fieldReads, r.1 < r.2

/-- The copy has the fields of the descriptor. -/
theorem copy_getElem? {off : Nat} (hcopy : s.usrd.take d.length = d)
    (hoff : off < d.length) : s.usrd[off]? = some (field off d) := by
  have hd : d[off]? = some (field off d) := by
    unfold field
    rw [List.getD_eq_getElem?_getD, List.getElem?_eq_getElem hoff]
    rfl
  rw [← hd]
  conv_rhs => rw [← hcopy]
  rw [List.getElem?_take_of_lt hoff]

/-- What is kept of a configuration descriptor. -/
theorem onConfiguration_eq (hcopy : s.usrd.take d.length = d)
    (hlen : 6 ≤ d.length) :
    onConfiguration d.length s = .ok ({ s with
      cfg := (field 5 d).toNat
      iface := -1
      fieldReads := s.fieldReads ++ [(5, d.length)] }, .next) := by
  have h5 := copy_getElem? hcopy (show 5 < d.length by omega)
  simp only [onConfiguration, readField, h5]
  rfl

/-- What is kept of an interface descriptor; the class is read only if none
is known yet. -/
theorem onInterface_eq (hcopy : s.usrd.take d.length = d)
    (hlen : 3 ≤ d.length) (hclass : s.udev.cls = 0 → 6 ≤ d.length) :
    onInterface d.length s = .ok ({ s with
      iface := (field 2 d).toNat
      udev := { s.udev with
        cls := if s.udev.cls = 0 then field 5 d else s.udev.cls }
      fieldReads := s.fieldReads ++ [(2, d.length)]
        ++ if s.udev.cls = 0 then [(5, d.length)] else [] }, .next) := by
  have h2 := copy_getElem? hcopy (show 2 < d.length by omega)
  by_cases hcls : s.udev.cls = 0
  · have hlen' := hclass hcls
    have h5 := copy_getElem? hcopy (show 5 < d.length by omega)
    simp only [onInterface, readField, h2, h5, ok_bind, if_pos hcls]
    rfl
  · simp only [onInterface, readField, h2, ok_bind, if_neg hcls,
      List.append_nil]
    rfl

/-- What is kept of an endpoint descriptor, if there is memory and room for
it. -/
theorem onEndpoint_eq (halloc : alloc s.allocs = true)
    (hcopy : s.usrd.take d.length = d) (hlen : 7 ≤ d.length)
    (hcnt : s.cnt < usbMaxEps) :
    onEndpoint alloc d.length s = .ok ({ s with
      udev := { s.udev with
        ep := Function.update s.udev.ep s.cnt
          (some (endpointOf (field 2 d) (field 3 d) (field 4 d) (field 5 d)
            (field 6 d))) }
      cnt := s.cnt + 1
      allocs := s.allocs + 1
      fieldReads := s.fieldReads
        ++ [3, 2, 4, 5, 6].map fun off => (off, d.length) }, .next) := by
  have h2 := copy_getElem? hcopy (show 2 < d.length by omega)
  have h3 := copy_getElem? hcopy (show 3 < d.length by omega)
  have h4 := copy_getElem? hcopy (show 4 < d.length by omega)
  have h5 := copy_getElem? hcopy (show 5 < d.length by omega)
  have h6 := copy_getElem? hcopy (show 6 < d.length by omega)
  simp only [onEndpoint, readField, halloc, if_true, h2, h3, h4, h5, h6,
    ok_bind, storeEp, if_pos hcnt]
  simp

/-- The variables behind the descriptors `ds`, and the device as `dev`. -/
structure Decoded (dev : ConfigDev) (ds : List (List UInt8)) (s : Parser) :
    Prop where
  cfg : s.cfg = configOf ds
  iface : s.iface = ifaceOf ds
  udev : s.udev = dev
  cnt : s.cnt = (epsOf ds).length
  within : s.Within

/-- What is none of the update's business. -/
structure Kept (s s' : Parser) : Prop where
  d : s'.d = s.d
  usrd : s'.usrd = s.usrd
  curLen : s'.curLen = s.curLen
  err : s'.err = s.err
  calls : s'.calls = s.calls

theorem within_append {l l' : List (Nat × Nat)} (hl : ∀ r ∈ l, r.1 < r.2)
    (hl' : ∀ r ∈ l', r.1 < r.2) : ∀ r ∈ l ++ l', r.1 < r.2 := by
  intro r hr
  rcases List.mem_append.1 hr with hr | hr
  · exact hl r hr
  · exact hl' r hr

/-- A configuration descriptor is decoded as the specification has it. -/
theorem Decoded.configuration (h : Decoded dev ds s)
    (hcopy : s.usrd.take d.length = d) (hlen : 6 ≤ d.length)
    (hc : hasType descConfiguration d = true)
    (hi : hasType descInterface d = false)
    (he : hasType descEndpoint d = false) :
    ∃ s', onConfiguration d.length s = .ok (s', .next)
      ∧ Decoded (storeDesc ds d dev) (ds ++ [d]) s' ∧ Kept s s' := by
  refine ⟨_, onConfiguration_eq hcopy hlen, ⟨?_, ?_, ?_, ?_, ?_⟩,
    ⟨rfl, rfl, rfl, rfl, rfl⟩⟩
  · rw [configOf_append, if_pos hc]
  · rw [ifaceOf_append, if_pos hc]
  · simp [storeDesc, hi, he, h.udev]
  · rw [epsOf_append, he]
    simpa using h.cnt
  · exact within_append h.within (by simpa using by omega)

theorem Decoded.interface (h : Decoded dev ds s)
    (hcopy : s.usrd.take d.length = d) (hlen : 3 ≤ d.length)
    (hclass : dev.cls = 0 → 6 ≤ d.length)
    (hc : hasType descConfiguration d = false)
    (hi : hasType descInterface d = true)
    (he : hasType descEndpoint d = false) :
    ∃ s', onInterface d.length s = .ok (s', .next)
      ∧ Decoded (storeDesc ds d dev) (ds ++ [d]) s' ∧ Kept s s' := by
  rw [← h.udev] at hclass
  refine ⟨_, onInterface_eq hcopy hlen hclass, ⟨?_, ?_, ?_, ?_, ?_⟩,
    ⟨rfl, rfl, rfl, rfl, rfl⟩⟩
  · rw [configOf_append, hc]
    simpa using h.cfg
  · rw [ifaceOf_append, hc, hi]
    simp
  · simp [storeDesc, hi, he, ← h.udev]
  · rw [epsOf_append, he]
    simpa using h.cnt
  · refine within_append (within_append h.within (by simpa using by omega))
      ?_
    intro r hr
    split at hr
    · next hzero =>
        have hlen' := hclass hzero
        obtain rfl := List.mem_singleton.1 hr
        show 5 < d.length
        omega
    · cases hr

theorem Decoded.endpoint (h : Decoded dev ds s)
    (halloc : alloc s.allocs = true) (hcopy : s.usrd.take d.length = d)
    (hlen : 7 ≤ d.length)
    (heps : (epsOf (ds ++ [d])).length ≤ usbMaxEps)
    (hc : hasType descConfiguration d = false)
    (hi : hasType descInterface d = false)
    (he : hasType descEndpoint d = true) :
    ∃ s', onEndpoint alloc d.length s = .ok (s', .next)
      ∧ Decoded (storeDesc ds d dev) (ds ++ [d]) s' ∧ Kept s s' := by
  have hcnt : s.cnt < usbMaxEps := by
    rw [epsOf_append, he] at heps
    simp only [if_true, List.length_append, List.length_singleton] at heps
    rw [h.cnt]
    omega
  refine ⟨_, onEndpoint_eq halloc hcopy hlen hcnt, ⟨?_, ?_, ?_, ?_, ?_⟩,
    ⟨rfl, rfl, rfl, rfl, rfl⟩⟩
  · rw [configOf_append, hc]
    simpa using h.cfg
  · rw [ifaceOf_append, hc, hi]
    simpa using h.iface
  · simp [storeDesc, hi, he, ← h.udev, h.cnt]
  · rw [epsOf_append, he]
    simpa using h.cnt
  · refine within_append h.within ?_
    intro r hr
    obtain ⟨off, hoff, rfl⟩ := List.mem_map.1 hr
    simp only [List.mem_cons, List.not_mem_nil, or_false] at hoff
    show off < d.length
    omega

/-- The update by the type of a descriptor whose fields lie in it. -/
theorem Decoded.decodeDesc (h : Decoded dev ds s) (hrest : s.d = d ++ t)
    (hread : Readable dev.cls d t) (hcopy : s.usrd.take d.length = d)
    (heps : (epsOf (ds ++ [d])).length ≤ usbMaxEps) :
    (∃ s', decodeDesc alloc d.length s = .ok (s', .next)
      ∧ Decoded (storeDesc ds d dev) (ds ++ [d]) s' ∧ Kept s s')
    ∨ (∃ s', decodeDesc alloc d.length s = .ok (s', .fatal)
      ∧ s'.Within ∧ ∃ k, alloc k = false) := by
  obtain ⟨b, hb, hend⟩ := hread.fields
  have hc := hread.hasType_iff hb descConfiguration (by decide)
  have hi := hread.hasType_iff hb descInterface (by decide)
  have he := hread.hasType_iff hb descEndpoint (by decide)
  unfold Usb.decodeDesc
  rw [hrest, hb]
  simp only
  unfold fieldsEnd at hend
  -- one case for each type of descriptor that is decoded; all others are
  -- passed over
  by_cases hb2 : b.toNat = descConfiguration
  · rw [if_pos hb2] at hend
    rw [if_pos hb2]
    have hi' : ¬hasType descInterface d = true := by
      rw [hi, hb2]
      decide
    have he' : ¬hasType descEndpoint d = true := by
      rw [he, hb2]
      decide
    exact .inl (h.configuration hcopy hend (hc.2 hb2)
      (Bool.eq_false_iff.2 hi') (Bool.eq_false_iff.2 he'))
  rw [if_neg hb2] at hend
  rw [if_neg hb2]
  have hc' := Bool.eq_false_iff.2 (mt hc.1 hb2)
  by_cases hb4 : b.toNat = descInterface
  · rw [if_pos hb4] at hend
    rw [if_pos hb4]
    have he' : ¬hasType descEndpoint d = true := by
      rw [he, hb4]
      decide
    refine .inl (h.interface hcopy ?_ ?_ hc' (hi.2 hb4)
      (Bool.eq_false_iff.2 he'))
    · split at hend <;> omega
    · intro hzero
      rwa [if_pos hzero] at hend
  rw [if_neg hb4] at hend
  rw [if_neg hb4]
  have hi' := Bool.eq_false_iff.2 (mt hi.1 hb4)
  by_cases hb5 : b.toNat = descEndpoint
  · rw [if_pos hb5] at hend
    rw [if_pos hb5]
    cases halloc : alloc s.allocs with
    | true =>
        exact .inl (h.endpoint halloc hcopy hend heps hc' hi' (he.2 hb5))
    | false =>
        refine .inr ⟨{ s with allocs := s.allocs + 1 }, ?_, h.within,
          _, halloc⟩
        unfold onEndpoint
        rw [halloc]
        rfl
  · rw [if_neg hb5]
    have he' := Bool.eq_false_iff.2 (mt he.1 hb5)
    refine .inl ⟨s, rfl, ⟨?_, ?_, ?_, ?_, h.within⟩,
      ⟨rfl, rfl, rfl, rfl, rfl⟩⟩
    · rw [configOf_append, hc']
      exact h.cfg
    · rw [ifaceOf_append, hc', hi']
      exact h.iface
    · simp [storeDesc, hi', he', h.udev]
    · rw [epsOf_append, he']
      simpa using h.cnt

-- ============================================================= one pass

/-- The loop is behind the descriptors `ds` and has `t` left. -/
structure Parsed (cb : Option ConfigCb) (udev : ConfigDev)
    (ds : List (List UInt8)) (t : List UInt8) (s : Parser) : Prop
    extends Decoded (deviceOf cb udev ds) ds s where
  rest : s.d = t
  curLen : s.curLen = ds.flatten.length
  err : s.err = 0
  calls : s.calls = if cb.isSome then callsOf ds else []

theorem Parsed.start (cb : Option ConfigCb) (udev : ConfigDev)
    (table : List UInt8) : Parsed cb udev [] table (.start udev table) where
  cfg := rfl
  iface := rfl
  udev := rfl
  cnt := rfl
  within := by simp [Parser.Within, Parser.start]
  rest := rfl
  curLen := rfl
  err := rfl
  calls := by cases cb <;> rfl

/-- Nothing ends the loop early. -/
def Undisturbed (alloc : Nat → Bool) (cb : Option ConfigCb) : Prop :=
  (∀ k, alloc k = true)
    ∧ ∀ f, cb = some f → ∀ calls dev, (f calls dev).1 = 0

/-- The descriptor is copied to the start of the buffer. -/
theorem copyDesc_eq (hrest : s.d = d ++ t) :
    copyDesc d.length s
      = .ok ({ s with usrd := d ++ s.usrd.drop d.length }, .next) := by
  have hle : d.length ≤ s.d.length := by
    rw [hrest, List.length_append]
    omega
  have htake : s.d.take d.length = d := by
    rw [hrest]
    exact List.take_left' rfl
  unfold copyDesc
  rw [if_pos hle, htake]

/-- The buffer holds the descriptor, or memory has run out. -/
theorem fitBuffer_copyDesc (hrest : s.d = d ++ t) :
    (∃ usrd allocs, (fitBuffer alloc d.length s).andThen
        (copyDesc d.length) = .ok ({ s with usrd, allocs }, .next)
      ∧ usrd.take d.length = d)
    ∨ (∃ s', (fitBuffer alloc d.length s).andThen (copyDesc d.length)
        = .ok (s', .leave)
      ∧ s'.fieldReads = s.fieldReads ∧ ∃ k, alloc k = false) := by
  unfold fitBuffer
  by_cases hshort : s.usrd.length < d.length
  · rw [if_pos hshort]
    cases halloc : alloc s.allocs with
    | true =>
        rw [if_pos rfl, ConfigStep.andThen_next]
        exact .inl ⟨_, _, copyDesc_eq hrest, List.take_left' rfl⟩
    | false => exact .inr ⟨_, rfl, rfl, _, halloc⟩
  · rw [if_neg hshort]
    exact .inl ⟨_, s.allocs, copyDesc_eq hrest, List.take_left' rfl⟩

/-- One round of the loop, as the sequence of its parts. -/
theorem parseDesc_eq (hrest : s.d = d ++ t)
    (hhead : d.head?.map UInt8.toNat = some d.length) :
    parseDesc alloc cb s
      = ((((fitBuffer alloc d.length s).andThen
          (copyDesc d.length)).andThen (decodeDesc alloc d.length)).andThen
          (sendDesc cb d.length)).andThen (nextDesc d.length) := by
  unfold parseDesc
  rw [hrest]
  cases d with
  | nil => cases hhead
  | cons b d =>
      have hb : b.toNat = (b :: d).length := Option.some.inj hhead
      have hne : (b :: d).length ≠ 0 := Nat.succ_ne_zero _
      show (if b.toNat = 0 then _ else _) = _
      rw [hb, if_neg hne]

/-- The loop goes on behind a descriptor whose fields lie in it, or stops
with all reads in their descriptors. -/
theorem Parsed.parseDesc (h : Parsed cb udev ds (d ++ t) s)
    (alloc : Nat → Bool) (hread : Readable (deviceOf cb udev ds).cls d t)
    (heps : (epsOf (ds ++ [d])).length ≤ usbMaxEps) :
    (∃ s', parseDesc alloc cb s = .ok (s', .next)
      ∧ Parsed cb udev (ds ++ [d]) t s')
    ∨ (∃ s' flow, parseDesc alloc cb s = .ok (s', flow) ∧ flow ≠ .next
      ∧ s'.Within ∧ ¬Undisturbed alloc cb) := by
  rw [parseDesc_eq h.rest hread.header]
  rcases fitBuffer_copyDesc h.rest with
    ⟨usrd, allocs, hcopied, hcopy⟩ | ⟨s', hcopied, hreads, k, hk⟩
  -- no memory for the buffer: the loop is left with what was read so far
  rotate_left
  · rw [hcopied]
    refine .inr ⟨s', .leave, rfl, by decide, ?_, fun hun => ?_⟩
    · intro r hr
      exact h.within r (hreads ▸ hr)
    · rw [hun.1 k] at hk
      cases hk
  rw [hcopied, ConfigStep.andThen_next]
  have hdec : Decoded (deviceOf cb udev ds) ds { s with usrd, allocs } :=
    ⟨h.cfg, h.iface, h.udev, h.cnt, h.within⟩
  rcases hdec.decodeDesc h.rest hread hcopy heps with
    ⟨s₂, hs₂, hdec₂, hkept⟩ | ⟨s', hs', hwithin, k, hk⟩
  rotate_left
  · rw [hs']
    refine .inr ⟨s', .fatal, rfl, by decide, hwithin, fun hun => ?_⟩
    rw [hun.1 k] at hk
    cases hk
  rw [hs₂, ConfigStep.andThen_next]
  have hrest₂ : s₂.d.drop d.length = t := by
    rw [hkept.d]
    show s.d.drop d.length = t
    rw [h.rest]
    exact List.drop_left' rfl
  -- the cursor moves by the length in the header, which is that of the
  -- descriptor
  have hcur₂ : s₂.curLen + d.length = (ds ++ [d]).flatten.length := by
    rw [hkept.curLen]
    simp [h.curLen]
  have herr₂ : s₂.err = 0 := hkept.err.trans h.err
  have hcalls₂ : s₂.calls = if cb.isSome then callsOf ds else [] :=
    hkept.calls.trans h.calls
  have hdev := deviceOf_append cb udev ds d
  cases cb with
  | none =>
      refine .inl ⟨_, rfl, { hdec₂ with
        udev := hdec₂.udev.trans hdev.symm
        rest := hrest₂
        curLen := hcur₂
        err := herr₂
        calls := hcalls₂ }⟩
  | some f =>
      have hsent : s₂.calls ++ [⟨s₂.cfg, s₂.iface,
          some (s₂.usrd.take d.length)⟩] = callsOf (ds ++ [d]) := by
        have husrd : s₂.usrd.take d.length = d := by
          rw [hkept.usrd]
          exact hcopy
        rw [hcalls₂, hdec₂.cfg, hdec₂.iface, husrd, callsOf_append]
        rfl
      have hleft : (f (callsOf (ds ++ [d])) s₂.udev).2
          = deviceOf (some f) udev (ds ++ [d]) := by
        rw [hdev, hdec₂.udev]
        rfl
      unfold sendDesc
      simp only [hsent]
      -- the callback decides whether the loop goes on
      by_cases hzero : (f (callsOf (ds ++ [d])) s₂.udev).1 = 0
      · rw [if_pos hzero]
        refine .inl ⟨_, rfl, { hdec₂ with
          udev := hleft
          rest := hrest₂
          curLen := hcur₂
          err := herr₂
          calls := rfl }⟩
      · rw [if_neg hzero]
        refine .inr ⟨_, .leave, rfl, by decide, hdec₂.within, fun hun =>
          ?_⟩
        exact hzero (hun.2 f rfl _ _)

-- ============================================================= the loop

/-- Where the class is 0, it may be so by `classes`. -/
def Foreseen (classes : Classes) (cb : Option ConfigCb) (udev : ConfigDev) :
    Prop :=
  ∀ ds, (deviceOf cb udev ds).cls = 0 → classes ds = 0

/-- The loop gets behind the descriptors that fit, or is stopped with all
reads in their descriptors. -/
theorem Parsed.parseLoop (h : Parsed cb udev ds (ds'.flatten ++ rest) s)
    (hclasses : Foreseen classes cb udev)
    (hfits : FitsFrom classes ds ds' rest) {totLen fuel : Nat}
    (htot : totLen = ds.flatten.length + ds'.flatten.length + rest.length)
    (hfuel : ds'.length < fuel) :
    (∃ s', parseLoop alloc cb totLen fuel s = .ok (s', .leave)
      ∧ Parsed cb udev (ds ++ ds') rest s')
    ∨ (∃ s' flow, parseLoop alloc cb totLen fuel s = .ok (s', flow)
      ∧ s'.Within ∧ ¬Undisturbed alloc cb) := by
  induction ds' generalizing ds s fuel with
  | nil =>
      obtain ⟨fuel, rfl⟩ := Nat.exists_eq_add_of_lt hfuel
      left
      refine ⟨s, ?_, by rwa [List.append_nil]⟩
      unfold Usb.parseLoop
      have hrest : s.d = rest := h.rest
      rcases hfits.stop with rfl | hzero
      · rw [if_neg (by simp [htot, h.curLen])]
      · obtain ⟨t, rfl⟩ := List.head?_eq_some_iff.1 hzero
        have hstop : Usb.parseDesc alloc cb s = .ok (s, .leave) := by
          unfold Usb.parseDesc
          rw [hrest]
          rfl
        rw [if_pos (by simp [htot, h.curLen]), hstop,
          ConfigStep.andThen_leave]
  | cons d ds' ih =>
      obtain ⟨fuel, rfl⟩ := Nat.exists_eq_add_of_lt hfuel
      have hpos := hfits.head.length_pos
      have hlt : s.curLen < totLen := by
        rw [htot, h.curLen, List.flatten_cons, List.length_append]
        omega
      have hparsed : Parsed cb udev ds (d ++ (ds'.flatten ++ rest)) s := by
        rwa [List.flatten_cons, List.append_assoc] at h
      unfold Usb.parseLoop
      rw [if_pos hlt]
      have hread := hfits.head.weaken (hclasses ds)
      rcases hparsed.parseDesc alloc hread hfits.eps_head with
        ⟨s', hs', h'⟩ | ⟨s', flow, hs', hflow, hwithin, hun⟩
      · rw [hs', ConfigStep.andThen_next, List.append_cons]
        refine ih h' hfits.tail ?_ ?_
        · simp only [htot, List.flatten_cons, List.length_append,
            List.flatten_append, List.flatten_nil, List.append_nil]
          omega
        · simp only [List.length_cons] at hfuel ⊢
          omega
      · rw [hs']
        right
        cases flow with
        | next => exact absurd rfl hflow
        | leave => exact ⟨s', .leave, rfl, hwithin, hun⟩
        | fatal => exact ⟨s', .fatal, rfl, hwithin, hun⟩

/-- There are no more descriptors than bytes, so the fuel suffices. -/
theorem length_le_flatten (hds : ∀ d ∈ ds, 0 < d.length) :
    ds.length ≤ ds.flatten.length := by
  induction ds with
  | nil => exact Nat.zero_le _
  | cons d ds ih =>
      have hd := hds d (List.mem_cons_self ..)
      have hle := ih fun e he => hds e (List.mem_cons_of_mem d he)
      simp only [List.length_cons, List.flatten_cons, List.length_append]
      omega

/-- The loop on a table that fits. -/
theorem FitsFrom.parseLoop (h : FitsFrom classes [] ds rest)
    (alloc : Nat → Bool) (cb : Option ConfigCb)
    (hclasses : Foreseen classes cb udev) :
    (∃ s', parseLoop alloc cb (ds.flatten ++ rest).length
        ((ds.flatten ++ rest).length + 1)
        (.start udev (ds.flatten ++ rest)) = .ok (s', .leave)
      ∧ Parsed cb udev ds rest s')
    ∨ (∃ s' flow, parseLoop alloc cb (ds.flatten ++ rest).length
        ((ds.flatten ++ rest).length + 1)
        (.start udev (ds.flatten ++ rest)) = .ok (s', flow)
      ∧ s'.Within ∧ ¬Undisturbed alloc cb) := by
  have hlen : ds.length ≤ ds.flatten.length := by
    refine length_le_flatten fun d hd => ?_
    obtain ⟨pre, post, hds⟩ := List.append_of_mem hd
    exact (h.each pre d post hds).length_pos
  refine (Parsed.start cb udev _).parseLoop hclasses h ?_ ?_
  · simp
  · rw [List.length_append]
    omega

-- ==================================================== well-formed tables

/-- The size of the struct of a type. -/
def descSize (type : Nat) : Nat :=
  if type = descConfiguration then 9
  else if type = descInterface then 9
  else if type = descEndpoint then 7
  else 2

/-- A descriptor states its length, and is no shorter than the struct of
its type. -/
structure WellFormed (d : List UInt8) : Prop where
  header : d.head?.map UInt8.toNat = some d.length
  size : ∃ b, d[1]? = some b ∧ descSize b.toNat ≤ d.length

/-- A descriptor of the length that its type asks for can be read. -/
theorem WellFormed.readable (h : WellFormed d) (cls : UInt8)
    (t : List UInt8) : Readable cls d t where
  header := h.header
  fields := by
    obtain ⟨b, hb, hsize⟩ := h.size
    refine ⟨b, ?_, ?_⟩
    · obtain ⟨hlt, hget⟩ := List.getElem?_eq_some_iff.1 hb
      rw [List.getElem?_append_left hlt, hb]
    · unfold descSize at hsize
      unfold fieldsEnd
      split_ifs at hsize ⊢ <;> omega

/-- On a table of well-formed descriptors, with at most 32 endpoints, and
with a callback that returns 0, `parse_config` calls the callback for each
descriptor and at the end, and returns 0. It stores the endpoints in their
order and the class, where the callback does not write them itself. -/
theorem config_parsed (alloc : Nat → Bool) (cb : ConfigCb)
    (udev : ConfigDev) (ds : List (List UInt8))
    (hds : ∀ d ∈ ds, WellFormed d)
    (heps : ds.countP (hasType descEndpoint) ≤ 32)
    (hcb : ∀ calls dev, (cb calls dev).1 = 0)
    (halloc : ∀ k, alloc k = true) :
    ∃ s, parseConfig alloc (some cb) udev ds.flatten = .ok (s, .leave)
      ∧ s.calls = callsOf ds ++ [⟨configOf ds, ifaceOf ds, none⟩]
      ∧ ((∀ calls dev, (cb calls dev).2.ep = dev.ep) →
        (∀ i (hi : i < (epsOf ds).length),
          s.udev.ep i = some ((epsOf ds)[i]))
        ∧ ∀ i, (epsOf ds).length ≤ i → s.udev.ep i = udev.ep i)
      ∧ ((∀ calls dev, (cb calls dev).2.cls = dev.cls) →
        s.udev.cls = classOf udev.cls ds)
      ∧ s.err = 0 := by
  have hfits : FitsFrom (fun _ => 0) [] ds [] :=
    { stop := .inl rfl
      eps := by
        rw [List.nil_append, epsOf, List.length_map,
          ← List.countP_eq_length_filter]
        exact heps
      each := fun pre d post hpre =>
        (hds d (by simp [hpre])).readable _ _ }
  have hun : Undisturbed alloc (some cb) :=
    ⟨halloc, fun f hf => Option.some.inj hf ▸ hcb⟩
  have hclasses : Foreseen (fun _ => 0) (some cb) udev := fun _ _ => rfl
  rcases hfits.parseLoop alloc (some cb) hclasses with
    ⟨s, hs, h⟩ | ⟨s, flow, -, -, hnot⟩
  · rw [List.append_nil] at hs
    -- all bytes were parsed, so the callback is called once more, without
    -- a descriptor
    have hend : reportEnd (some cb) ds.flatten.length s
        = { s with
          calls := s.calls ++ [⟨s.cfg, s.iface, none⟩]
          udev :=
            (cb (s.calls ++ [⟨s.cfg, s.iface, none⟩]) s.udev).2 } := by
      simp only [reportEnd, if_pos h.curLen]
    refine ⟨reportEnd (some cb) ds.flatten.length s, ?_, ?_⟩
    · unfold parseConfig
      rw [hs]
    rw [hend]
    refine ⟨?_, fun hep => ?_, fun hcls => ?_, h.err⟩
    · show s.calls ++ _ = _
      rw [h.calls, h.cfg, h.iface]
      rfl
    · have hleaves : LeavesEps (some cb) := hep
      have hdev : ∀ i,
          (cb (s.calls ++ [⟨s.cfg, s.iface, none⟩]) s.udev).2.ep
          i = ((epsOf ds)[i]?).or (udev.ep i) := by
        intro i
        rw [hep, h.udev, deviceOf_ep hleaves]
      refine ⟨fun i hi => ?_, fun i hi => ?_⟩
      · refine (hdev i).trans ?_
        rw [List.getElem?_eq_getElem hi]
        rfl
      · refine (hdev i).trans ?_
        rw [List.getElem?_eq_none hi]
        rfl
    · have hleaves : LeavesClass (some cb) := hcls
      show (cb _ s.udev).2.cls = _
      rw [hcls, h.udev]
      exact deviceOf_cls hleaves udev ds
  · exact absurd hun hnot

/-- The descriptors of the root hub, for a callback that only looks. -/
theorem config_parsed_hub :
    ∃ s, parseConfig (fun _ => true) (some fun _ dev => (0, dev))
        ⟨0, fun _ => none⟩
        [hubConfigDesc, hubIfaceDesc, hubEndpointDesc 4].flatten
        = .ok (s, .leave)
      ∧ s.calls
        = [⟨1, -1, some hubConfigDesc⟩, ⟨1, 0, some hubIfaceDesc⟩,
        ⟨1, 0, some (hubEndpointDesc 4)⟩, ⟨1, 0, none⟩]
      ∧ s.udev.ep 0 = some ⟨3, 1, 1, 4, 0xc⟩
      ∧ s.udev.cls = 9 := by
  have hds : ∀ d ∈ [hubConfigDesc, hubIfaceDesc, hubEndpointDesc 4],
      WellFormed d := by
    intro d hd
    rcases List.mem_cons.1 hd with rfl | hd
    · exact ⟨rfl, 2, rfl, by decide⟩
    rcases List.mem_cons.1 hd with rfl | hd
    · exact ⟨rfl, 4, rfl, by decide⟩
    obtain rfl := List.mem_singleton.1 hd
    exact ⟨rfl, 5, rfl, by decide⟩
  obtain ⟨s, hs, hcalls, hep, hcls, -⟩ :=
    config_parsed (fun _ => true) (fun _ dev => (0, dev))
      ⟨0, fun _ => none⟩ _ hds (by decide) (fun _ _ => rfl) (fun _ => rfl)
  refine ⟨s, hs, hcalls.trans (by decide), ?_,
    (hcls fun _ _ => rfl).trans (by decide)⟩
  exact ((hep fun _ _ => rfl).1 0 (by decide)).trans (by decide)

/-- `usb_cdc_config_cb`, of which only what it writes of the device is
kept: the class of an interface, of each that comes. -/
def usbCdcConfigCb : ConfigCb := fun calls dev =>
  match calls.getLast?.bind ConfigCall.desc with
  | none => (0, dev)
  | some desc =>
      if hasType descInterface desc then
        (0, { dev with cls := field 5 desc })
      else (0, dev)

/-- A modem with a communication interface (class 2) and a data interface
(class 10): the class of the device ends as 10, not as 2. -/
theorem class_of_last_interface :
    ∃ ds : List (List UInt8), (∀ d ∈ ds, WellFormed d)
      ∧ ds.countP (hasType descEndpoint) ≤ 32
      ∧ (∀ calls dev, (usbCdcConfigCb calls dev).1 = 0)
      ∧ classOf 0 ds = 2
      ∧ ∃ s, parseConfig (fun _ => true) (some usbCdcConfigCb)
          ⟨0, fun _ => none⟩ ds.flatten = .ok (s, .leave)
        ∧ s.udev.cls = 10 := by
  refine ⟨[[9, 4, 0, 0, 0, 2, 2, 1, 0], [9, 4, 1, 0, 0, 10, 0, 0, 0]], ?_,
    by decide, ?_, by decide, _, rfl, rfl⟩
  · intro d hd
    rcases List.mem_cons.1 hd with rfl | hd
    · exact ⟨rfl, 4, rfl, by decide⟩
    obtain rfl := List.mem_singleton.1 hd
    exact ⟨rfl, 4, rfl, by decide⟩
  · intro calls dev
    unfold usbCdcConfigCb
    split
    · rfl
    · split
      · rfl
      · rfl

end ProjectsLibs.Usb
